import DialdTop.Authorisation

/-!
# The invariant of the reachable states

A port is accepted on a descriptor which was not open, so that the queue never
holds two ports with one descriptor.  The invariant of the queue and that of
the descriptors therefore hold together in every reachable state.
-/

namespace DialdTop

open Program
open Relation (ReflTransGen)

structure ServerInv (s : Server) : Prop where
  queue : QueueInv s
  descriptors : DescriptorInv s

theorem ServerInv.portsApart {s : Server} (hinv : ServerInv s) : PortsApart s :=
  hinv.descriptors.portsApart

theorem ServerInv.isOpen {s : Server} (hinv : ServerInv s) {p : Port} (hp : p ∈ s.pq) :
    p.fd ∈ s.kernel := by
  apply hinv.descriptors.isOpen
  simp only [Server.held, List.mem_cons, List.mem_append]
  exact Or.inr (Or.inr (List.mem_map_of_mem hp))

theorem ServerInv.fresh_not_full {s : Server} (hinv : ServerInv s) {fd : Int}
    (hfresh : s.fresh fd) : fd ∉ s.ps.full := by
  rw [hinv.queue.full, List.mem_toFinset, List.mem_map]
  intro hmem
  rcases hmem with ⟨q, hq, hfd⟩
  apply hfresh.2
  rw [← hfd]
  exact hinv.isOpen hq

theorem Graded.not_monitor {aq : List AuthData} {p : Port} (hgraded : Graded aq p) :
    p.has flagMonitor = false := by
  rcases hgraded with ⟨_, hflag⟩ | ⟨granted, _, _, hflag⟩
  · rw [Port.has, hflag]
    decide
  · rw [Port.has, hflag]
    cases granted with
    | true => decide
    | false => decide

theorem QueueInv.portDaemon
    {env : Env} {s next : Server} {u : Unit} (hinv : ServerInv s)
    (haccepts : Accepts env s) (hrun : (portDaemon env).run s = .ok (u, next)) :
    QueueInv next := by
  rcases portDaemon_cases haccepts hrun with
    ⟨p, events, kernel, hfresh, hgraded, _, _, _, hadmitted⟩
  let prepared : Server :=
    { s with sIn := p, kernel := kernel, trace := s.trace ++ events }
  have hprepared : QueueInv prepared := { hinv.queue with }
  cases hadmitted with
  | queued hrange =>
      exact hprepared.enqueued ⟨hfresh.1, hrange⟩ (hinv.fresh_not_full hfresh)
        hgraded.not_monitor
  | refused => exact { hprepared with }

theorem QueueInv.reselected {s t : Server} (hinv : QueueInv s) (h : Reselected s t) :
    QueueInv t := by
  have hps := h.ps
  have hfs := h.fs
  rw [h.server]
  constructor
  · exact hinv.distinct
  · exact hinv.inRange
  · rw [hps]
    exact hinv.fullcount
  · rw [hps]
    exact hinv.full
  · rw [hps]
    exact hinv.maxfd
  · exact hinv.monitorcount
  · rw [hfs]
    exact hinv.fifoClosed
  · rw [hfs]
    exact hinv.fifoOpen

theorem ServerInv.serverStep
    {daemon : Env → Server → Prop} {relayed : Server → Server → Prop} {s next : Server}
    (hinv : ServerInv s) (hstep : ServerStep daemon relayed s next) : ServerInv next := by
  refine ⟨?_, hinv.descriptors.serverStep hstep⟩
  cases hstep with
  | doSelect hrun => exact hinv.queue.reselected (doSelect_cases hrun)
  | portDaemon haccepts _ hrun => exact QueueInv.portDaemon hinv haccepts hrun
  | portServer ready count hrun =>
      have hselected : QueueInv
          { s with ps := { s.ps with sel := ready, selcount := count } } :=
        { hinv.queue with }
      exact invariant_of_effects (fun _ _ heffect ha => ha.serveEffect heffect)
        (portServer_effects hrun) hselected
  | fifoServer hrun =>
      exact invariant_of_effects (fun _ _ heffect ha => ha.relayEffect heffect)
        (fifoServer_effects hrun) hinv.queue
  | rereadConf hrun =>
      rcases rereadConf_cases hrun with ⟨aq, events, _, hnext⟩
      have haq : QueueInv { s with aq := aq } := { hinv.queue with }
      rw [hnext]
      exact haq.regraded _

theorem Started.serverInv {s : Server} (hstart : Started s) : ServerInv s :=
  ⟨hstart.repInv.toQueueInv, hstart.balanced.toDescriptorInv⟩

/-- The reachable states of the server. -/
def Reachable (s : Server) : Prop :=
  ∃ env first, (start env).run Server.blank = .ok ((), first) ∧
    ReflTransGen (ServerStep (fun _ _ => True) fun _ _ => True) first s

theorem Reachable.serverInv {s : Server} (hreachable : Reachable s) : ServerInv s := by
  rcases hreachable with ⟨env, first, hstart, hsteps⟩
  have hstep : ∀ a b, ServerStep (fun _ _ => True) (fun _ _ => True) a b →
      ServerInv a → ServerInv b := by
    intro a b hab ha
    exact ha.serverStep hab
  exact invariant_of_effects hstep hsteps (start_cases hstart).serverInv

end DialdTop
