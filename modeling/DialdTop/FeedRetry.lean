import DialdTop.Commands
import DialdTop.ServerInvariant

/-!
# Opening the monitor FIFO again

`parse_incoming` sets `FLAG_MONITOR` and counts the port before it calls
`monitor_open`, which does not report a failure.  As long as no call of `open`
fails, somebody monitors only while the FIFO is open.
-/

namespace DialdTop

open Program
open Relation (ReflTransGen)

/-! ## Runs -/

/-- The steps of the server, with a restriction on the calls of `open`. -/
inductive FeedStep (opens : Env → Prop) : Server → Server → Prop
  | doSelect {env : Env} {s next : Server} :
      (doSelect env).run s = .ok ((), next) → FeedStep opens s next
  | portDaemon {env : Env} {s next : Server} : Accepts env s →
      (portDaemon env).run s = .ok ((), next) → FeedStep opens s next
  | portServer {env : Env} {fuel : ℕ} {s next : Server} (ready : Finset Int) (count : Int) :
      opens env →
        (portServer env fuel).run
          { s with ps := { s.ps with sel := ready, selcount := count } } = .ok ((), next) →
            FeedStep opens s next
  | fifoServer {env : Env} {fuel : ℕ} {s next : Server} :
      (fifoServer env fuel).run s = .ok ((), next) → FeedStep opens s next
  | rereadConf {env : Env} {s next : Server} :
      (rereadConf env).run s = .ok ((), next) → FeedStep opens s next

theorem FeedStep.serverStep {opens : Env → Prop} {s next : Server} (h : FeedStep opens s next) :
    ServerStep (fun _ _ => True) (fun _ _ => True) s next := by
  cases h with
  | doSelect hrun => exact .doSelect hrun
  | portDaemon haccepts hrun => exact .portDaemon haccepts trivial hrun
  | portServer ready count _ hrun => exact .portServer ready count hrun
  | fifoServer hrun => exact .fifoServer hrun trivial
  | rereadConf hrun => exact .rereadConf hrun

/-- The invariant of the server, and the FIFO is open while somebody monitors. -/
structure FeedInv (s : Server) : Prop extends ServerInv s where
  feed : 0 < s.monitorcount → s.monitorfd ≠ -1

theorem FeedInv.repInv {s : Server} (hinv : FeedInv s) : RepInv s :=
  ⟨hinv.queue, hinv.feed⟩

theorem RepInv.log {s : Server} (hinv : RepInv s) (event : Event) : RepInv (s.log event) :=
  ⟨hinv.toQueueInv.log event, hinv.feed⟩

theorem RepInv.serveEffect
    {env : Env} {s next : Server} (hopens : OpensMonitor env)
    (heffect : ServeEffect env s next) (hinv : RepInv s) : RepInv next := by
  cases heffect with
  | hangup _ _ hclose => exact (hinv.log _).closePort hclose
  | command hp hcommand => exact (hinv.log _).command hopens hp hcommand

theorem FeedInv.feedStep
    {s next : Server} (hinv : FeedInv s) (hstep : FeedStep OpensMonitor s next) :
    FeedInv next := by
  refine ⟨hinv.toServerInv.serverStep hstep.serverStep, ?_⟩
  cases hstep with
  | doSelect hrun =>
      rw [(doSelect_cases hrun).server]
      exact hinv.feed
  | portDaemon haccepts hrun =>
      rcases portDaemon_cases haccepts hrun with
        ⟨p, events, kernel, _, _, _, _, _, hadmitted⟩
      cases hadmitted with
      | queued => exact hinv.feed
      | refused => exact hinv.feed
  | portServer ready count hopens hrun =>
      have hselected : RepInv
          { s with ps := { s.ps with sel := ready, selcount := count } } :=
        ⟨{ hinv.queue with }, hinv.feed⟩
      have hnext := invariant_of_effects
        (fun _ _ heffect ha => RepInv.serveEffect hopens heffect ha)
        (portServer_effects hrun) hselected
      exact hnext.feed
  | fifoServer hrun =>
      have hnext := invariant_of_effects (fun _ _ heffect ha => RepInv.relayEffect heffect ha)
        (fifoServer_effects hrun) hinv.repInv
      exact hnext.feed
  | rereadConf hrun =>
      rcases rereadConf_cases hrun with ⟨aq, events, _, hnext⟩
      rw [hnext]
      exact hinv.feed

theorem Started.feedInv {s : Server} (hstart : Started s) : FeedInv s :=
  ⟨hstart.serverInv, hstart.repInv.feed⟩

/-! ## Retries -/

/-- A port monitors only while the FIFO is open, and while it is closed every
request to monitor opens it. -/
structure FeedRetries (s : Server) : Prop where
  flag : ∀ p ∈ s.pq, p.has flagMonitor = true → s.monitorfd ≠ -1
  count : s.monitorcount ≠ 0 → s.monitorfd ≠ -1
  retry : s.monitorfd = -1 → ∀ (env : Env) (line : List Byte) (c : ℕ) (p : Port),
    s.pq[c]? = some p → keyword line = some .monitor →
      (parseIncoming env line c).run s =
        ((monitorOpen env).run (s.monitorOn c)).map fun result => (false, result.2)

theorem QueueInv.monitorcount_pos
    {s : Server} (hinv : QueueInv s) {p : Port} (hp : p ∈ s.pq)
    (hmonitor : p.has flagMonitor = true) : 0 < s.monitorcount := by
  have hcount : 0 < s.pq.countP (·.has flagMonitor) :=
    List.countP_pos_iff.mpr ⟨p, hp, hmonitor⟩
  rw [hinv.monitorcount]
  omega

theorem FeedInv.feedRetries {s : Server} (hinv : FeedInv s) : FeedRetries s where
  flag := by
    intro p hp hmonitor
    exact hinv.feed (hinv.queue.monitorcount_pos hp hmonitor)
  count := by
    intro hcount
    apply hinv.feed
    have hnonneg : 0 ≤ s.monitorcount := by
      rw [hinv.queue.monitorcount]
      omega
    omega
  retry := by
    intro hclosed env line c p hp hline
    have hmonitor : ¬ p.has flagMonitor = true := by
      intro hmonitor
      exact hinv.feed (hinv.queue.monitorcount_pos (List.mem_of_getElem? hp) hmonitor) hclosed
    have hfull : s.fs.fullcount = 0 := (hinv.queue.fifoClosed hclosed).1
    rw [parseIncoming_run_monitor hp hline, if_neg hmonitor, if_pos hfull]

/-- In runs in which every call of `open` for the FIFO succeeds. -/
theorem feedRetries_of_run
    {env : Env} {s next : Server} (hstart : (start env).run Server.blank = .ok ((), s))
    (hsteps : ReflTransGen (FeedStep OpensMonitor) s next) : FeedRetries next := by
  have hstep : ∀ a b, FeedStep OpensMonitor a b → FeedInv a → FeedInv b := by
    intro a b hab ha
    exact ha.feedStep hab
  have hinv := invariant_of_effects hstep hsteps (start_cases hstart).feedInv
  exact hinv.feedRetries

/-- Whatever comes from a client asks for the monitor. -/
def Env.asking (openMonitor : Server → Option Int) : Env :=
  { Env.obliging with
    read := fun _ _ => some (bytes "monitor on\n")
    openMonitor := openMonitor }

/-- A server with one client. -/
def Server.joined : Server :=
  finalState ((portDaemon .obliging).run (finalState ((start .obliging).run .blank)))

/-- The server has called `port_server` for its client. -/
def Server.served (env : Env) : Server :=
  finalState ((portServer env 2).run
    { Server.joined with ps := { Server.joined.ps with sel := {3}, selcount := 1 } })

theorem served_run
    (opens : Env → Prop) (openMonitor : Server → Option Int)
    (hopens : opens (.asking openMonitor))
    (hserved : (portServer (.asking openMonitor) 2).run
      { Server.joined with ps := { Server.joined.ps with sel := {3}, selcount := 1 } } =
        .ok ((), .served (.asking openMonitor))) :
    ∃ started, (start .obliging).run .blank = .ok ((), started) ∧
      ReflTransGen (FeedStep opens) started (.served (.asking openMonitor)) := by
  let started := finalState ((start .obliging).run .blank)
  have hstart : (start .obliging).run .blank = .ok ((), started) := by decide +kernel
  have haccepts : Accepts .obliging started :=
    ⟨nextFd started, _, rfl, nextFd_fresh started⟩
  have hjoined : (portDaemon .obliging).run started = .ok ((), .joined) := by
    decide +kernel
  exact ⟨started, hstart,
    .tail (.single (.portDaemon haccepts hjoined)) (.portServer {3} 1 hopens hserved)⟩

theorem feedRetries_of_run_served :
    FeedRetries (.served (.asking fun s => some (nextFd s))) := by
  have hopens : OpensMonitor (.asking fun s => some (nextFd s)) := fun s =>
    ⟨nextFd s, rfl, nextFd_fresh s⟩
  rcases served_run OpensMonitor _ hopens (by decide +kernel) with ⟨started, hstart, hsteps⟩
  exact feedRetries_of_run hstart hsteps

/-- After a failed `open` the next request of the client does nothing, although
`open` would succeed. -/
theorem exists_lost_retry :
    ∃ env s next p, (start env).run Server.blank = .ok ((), s) ∧
      ReflTransGen (FeedStep fun _ => True) s next ∧ next.pq = [p] ∧
      p.has flagMonitor = true ∧ next.monitorcount = 1 ∧ next.monitorfd = -1 ∧
      (parseIncoming .obliging (bytes "monitor on\n") 0).run next = .ok (false, next) := by
  rcases served_run (fun _ => True) (fun _ => none) trivial (by decide +kernel) with
    ⟨started, hstart, hsteps⟩
  refine ⟨.obliging, started, _, (Server.served (.asking fun _ => none)).pq.headD monitorClient,
    hstart, hsteps, ?_, ?_, ?_, ?_, ?_⟩
  · decide +kernel
  · decide +kernel
  · decide +kernel
  · decide +kernel
  · decide +kernel

end DialdTop
