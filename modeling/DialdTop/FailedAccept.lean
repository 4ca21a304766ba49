import DialdTop.IdentExchange
import DialdTop.ServerInvariant

/-!
# Admission after `accept` has failed

The branch for -1 only logs.  The rest of `port_daemon` then runs for descriptor
-1 and the address which the previous client has left in `s_in`.
-/

namespace DialdTop

open Program
open Relation (ReflTransGen)

/-- A write to an open descriptor. -/
def Event.Sends : Event → Prop
  | .write _ fd _ _ => fd ≠ -1
  | _ => False

/-- `port_daemon` leaves the queue, its set and its counters as they were, and
sends nothing. -/
def FailedAcceptHarmless (env : Env) (s : Server) : Prop :=
  ∃ next events, (portDaemon env).run s = .ok ((), next) ∧
    next.pq = s.pq ∧ next.ps.full = s.ps.full ∧ next.ps.fullcount = s.ps.fullcount ∧
    next.ps.maxfd = s.ps.maxfd ∧ next.monitorcount = s.monitorcount ∧
    next.trace = s.trace ++ events ∧ ∀ event ∈ events, ¬ event.Sends

/-! ## The run -/

def Server.unaccepted (s : Server) : Server :=
  { s with sIn := { s.sIn with fd := -1 } }

theorem acceptPort_run_failed {env : Env} {s : Server} (hfail : ¬ Accepts env s) :
    (acceptPort env).run s = .ok ((), s.unaccepted) := by
  cases haccept : env.accept s with
  | none => simp [acceptPort, haccept, Server.unaccepted]
  | some answer =>
      rcases answer with ⟨fd, sa⟩
      have hstale : ¬ s.fresh fd := by
        intro hfresh
        exact hfail ⟨fd, sa, haccept, hfresh⟩
      simp [acceptPort, haccept, hstale, Server.unaccepted]

/-- The socket for identd, -1 when there is none, and the state with it. -/
def Server.withSocket (s : Server) (env : Env) : Int × Server :=
  match env.socket s with
  | some fd => if s.fresh fd then (fd, { s with kernel := insert fd s.kernel }) else (-1, s)
  | none => (-1, s)

theorem Server.withSocket_snd (s : Server) (env : Env) :
    (s.withSocket env).2 = { s with kernel := (s.withSocket env).2.kernel } := by
  unfold Server.withSocket
  split
  · split
    · rfl
    · rfl
  · rfl

theorem allocate_socket_run (env : Env) (s : Server) :
    (allocate env.socket).run s = .ok (s.withSocket env) := by
  cases hsocket : env.socket s with
  | none => simp [allocate, Server.withSocket, hsocket]
  | some fd =>
      by_cases hfresh : s.fresh fd
      · simp [allocate, Server.withSocket, hsocket, hfresh]
      · simp [allocate, Server.withSocket, hsocket, hfresh]

/-- A socket has been made, and it can be connected. -/
def IdentAnswers (env : Env) (s : Server) : Prop :=
  (s.withSocket env).1 ≠ -1 ∧
    env.connect (s.withSocket env).2 (s.withSocket env).1 = true

instance (env : Env) (s : Server) : Decidable (IdentAnswers env s) :=
  inferInstanceAs (Decidable (_ ∧ _))

/-- The state after the call of `connect`. -/
def Server.asked (s : Server) (env : Env) : Server :=
  (s.withSocket env).2.log
    (.connect (s.withSocket env).1 s.sIn.sa.sinAddr (IdentAnswers env s))

/-- The state in which a port without ident is enqueued. -/
def Server.withoutIdent (s : Server) (env : Env) : Server :=
  { s.log (.write .portDaemon s.sIn.fd unauthorizedLine
      (env.write s s.sIn.fd unauthorizedLine)) with
    sIn := { s.sIn with flag := flagRead, userid := none } }

theorem Server.asked_eq (s : Server) (env : Env) :
    s.asked env = { s with
      kernel := (s.withSocket env).2.kernel
      trace := s.trace ++
        [.connect (s.withSocket env).1 s.sIn.sa.sinAddr (IdentAnswers env s)] } := by
  rw [Server.asked, s.withSocket_snd env]
  rfl

theorem Server.withoutIdent_trace (s : Server) (env : Env) :
    ∃ result, (s.withoutIdent env).trace =
      s.trace ++ [.write .portDaemon s.sIn.fd unauthorizedLine result] :=
  ⟨_, rfl⟩

theorem Server.unaccepted_withoutIdent (s : Server) (env : Env) :
    let t := (s.unaccepted.asked env).withoutIdent env
    t.pq = s.pq ∧ t.ps = s.ps ∧ t.monitorcount = s.monitorcount ∧ t.sIn.fd = -1 ∧
      ∃ success result, t.trace = s.trace ++
        [.connect (s.unaccepted.withSocket env).1 s.sIn.sa.sinAddr success,
          .write .portDaemon (-1) unauthorizedLine result] := by
  intro t
  have ht : t = (s.unaccepted.asked env).withoutIdent env := rfl
  rw [Server.asked_eq] at ht
  rcases Server.withoutIdent_trace _ env with ⟨result, htrace⟩
  rw [← ht] at htrace
  refine ⟨?_, ?_, ?_, ?_, IdentAnswers env s.unaccepted, result, ?_⟩
  · rw [ht]
    rfl
  · rw [ht]
    rfl
  · rw [ht]
    rfl
  · rw [ht]
    rfl
  · rw [htrace, List.append_assoc]
    rfl

theorem admitWithoutIdent_run (env : Env) (s : Server) :
    (admitWithoutIdent env).run s = (enqueueIncoming env).run (s.withoutIdent env) := by
  simp [admitWithoutIdent, sysWrite, Server.withoutIdent, Server.log]

theorem portDaemon_run_failed {env : Env} {s : Server} (hfail : ¬ Accepts env s) :
    let asked := s.unaccepted.asked env
    (portDaemon env).run s =
      if IdentAnswers env s.unaccepted then
        (askIdent env (s.unaccepted.withSocket env).1 >>= afterIdent env).run asked
      else (enqueueIncoming env).run (asked.withoutIdent env) := by
  intro asked
  have hsuccess : (decide ((s.unaccepted.withSocket env).1 ≠ -1) &&
      env.connect (s.unaccepted.withSocket env).2 (s.unaccepted.withSocket env).1) =
        decide (IdentAnswers env s.unaccepted) := by
    rw [Bool.eq_iff_iff, Bool.and_eq_true, decide_eq_true_iff, decide_eq_true_iff]
    exact Iff.rfl
  have hconnect : (sysConnect env (s.unaccepted.withSocket env).1
      s.unaccepted.sIn.sa.sinAddr).run (s.unaccepted.withSocket env).2 =
        .ok (decide (IdentAnswers env s.unaccepted), asked) := by
    simp only [sysConnect, Prog.run_act, hsuccess]
    rfl
  rw [← admitWithoutIdent_run, portDaemon, Prog.run_bind, acceptPort_run_failed hfail]
  simp only [Prog.run_bind, run_look, allocate_socket_run, hconnect]
  by_cases hanswers : IdentAnswers env s.unaccepted
  · simp only [hanswers, decide_true, if_true]
    rw [Prog.run_bind]
    rfl
  · simp only [hanswers, decide_false, Bool.false_eq_true, if_false]

/-! ## Effects -/

/-- The port in `s_in` is never queued behind a failed `accept`: without memory it
is dropped, and otherwise its descriptor is no member of a bit set. -/
theorem enqueueIncoming_run_failed {env : Env} {s : Server} (hfd : s.sIn.fd = -1) :
    (enqueueIncoming env).run s =
      if env.malloc s then .error (.fault .badDescriptor)
      else .ok ((), { s with kernel := s.kernel.erase (-1) }) := by
  have hrange : ¬ (0 ≤ s.sIn.fd ∧ s.sIn.fd < fdSetSize) := by
    rw [hfd]
    omega
  rw [enqueueIncoming, Prog.run_bind, Prog.run_within, run_look]
  simp only [Prog.run_bind, portEnqueue_run, if_neg hrange]
  by_cases hmalloc : env.malloc s
  · rw [if_pos hmalloc, if_pos hmalloc]
  · rw [if_neg hmalloc, if_neg hmalloc]
    simp [sysClose, hfd]

/-- A query to identd is in the trace of every run which goes on behind it. -/
theorem askIdent_sends
    {env : Env} {sIdent : Int} {s next : Server} {u : Unit} (hopen : sIdent ≠ -1)
    (hrun : (askIdent env sIdent >>= afterIdent env).run s = .ok (u, next)) :
    ∃ events, next.trace = s.trace ++ events ∧ ∃ event ∈ events, event.Sends := by
  rw [Prog.run_bind_eq_ok] at hrun
  rcases hrun with ⟨userid, mid, hask, hafter⟩
  rcases askIdent_cases hask with ⟨request, result, reply, hmid⟩
  by_cases hfits : NameFits userid mid.sIn.sa.sinAddr (grants mid.aq userid mid.sIn.sa.sinAddr)
  · rw [afterIdent_run_fits env rfl hfits] at hafter
    have htrace := (enqueueIncoming_cases hafter).trace
    have hgreeted : ∀ granted, ∃ event,
        (mid.greeted env userid granted).trace = mid.trace ++ [event] := fun _ => ⟨_, rfl⟩
    rcases hgreeted (grants mid.aq userid mid.sIn.sa.sinAddr) with ⟨event, hevent⟩
    refine ⟨[.write .portDaemon sIdent request result, .read sIdent reply] ++ [event], ?_,
      .write .portDaemon sIdent request result, List.mem_cons_self, hopen⟩
    rw [htrace, hevent, hmid, List.append_assoc]
  · rw [afterIdent_run_overflow env rfl hfits] at hafter
    cases hafter

/-- A failed `accept` is harmless if and only if identd at the stale address does
not answer and there is no memory for a port. -/
theorem failedAcceptHarmless_iff {env : Env} {s : Server} (hfail : ¬ Accepts env s) :
    FailedAcceptHarmless env s ↔
      ¬ IdentAnswers env s.unaccepted ∧
        env.malloc ((s.unaccepted.asked env).withoutIdent env) = false := by
  have hrun := portDaemon_run_failed hfail
  by_cases hanswers : IdentAnswers env s.unaccepted
  · simp only [if_pos hanswers] at hrun
    refine iff_of_false ?_ fun h => h.1 hanswers
    intro hharmless
    rcases hharmless with ⟨next, events, hnext, _, _, _, _, _, htrace, hsilent⟩
    rw [hrun] at hnext
    rcases askIdent_sends hanswers.1 hnext with ⟨sent, hsent, event, hevent, hsends⟩
    have hsame : events = .connect (s.unaccepted.withSocket env).1
        s.unaccepted.sIn.sa.sinAddr (IdentAnswers env s.unaccepted) :: sent := by
      rw [hsent, Server.asked_eq, List.append_assoc] at htrace
      exact (List.append_cancel_left htrace).symm
    refine hsilent event ?_ hsends
    rw [hsame]
    exact List.mem_cons_of_mem _ hevent
  · simp only [if_neg hanswers] at hrun
    rcases s.unaccepted_withoutIdent env with
      ⟨hpq, hps, hmonitorcount, hfd, success, result, htrace⟩
    rw [enqueueIncoming_run_failed hfd] at hrun
    constructor
    · intro hharmless
      rcases hharmless with ⟨next, events, hnext, _⟩
      refine ⟨hanswers, ?_⟩
      by_contra hmalloc
      rw [Bool.not_eq_false] at hmalloc
      rw [hrun, if_pos hmalloc] at hnext
      cases hnext
    · intro hrefused
      rw [if_neg (by simp [hrefused.2])] at hrun
      refine ⟨_, _, hrun, hpq, ?_, ?_, ?_, hmonitorcount, htrace, ?_⟩
      · rw [← hps]
      · rw [← hps]
      · rw [← hps]
      · simp [Event.Sends]

/-- `accept` fails; identd answers or not, and there is memory or not. -/
def Env.refusing (connects malloc : Bool) : Env :=
  { Env.trusting with
    accept := fun _ => none
    connect := fun _ _ => connects
    malloc := fun _ => malloc }

theorem refusing_not_accepts (connects malloc : Bool) (s : Server) :
    ¬ Accepts (.refusing connects malloc) s := by
  rintro ⟨fd, sa, haccept, _⟩
  cases haccept

theorem failedAcceptHarmless_iff_refusing :
    FailedAcceptHarmless (.refusing false false) (finalState ((start .trusting).run .blank)) := by
  refine (failedAcceptHarmless_iff (refusing_not_accepts false false _)).mpr ⟨?_, rfl⟩
  decide +kernel

/-- A query about the previous client is sent to its address, then the set of
the ports is written at index -1. -/
theorem exists_harmful_accept :
    ∃ env s, Reachable s ∧ s.pq = [s.sIn] ∧ ¬ Accepts env s ∧ ¬ FailedAcceptHarmless env s ∧
      (portDaemon env).run s = .error (.fault .badDescriptor) ∧
      (s.unaccepted.asked env).trace = s.trace ++ [.connect 4 s.sIn.sa.sinAddr true] ∧
      ((askIdent env 4).run (s.unaccepted.asked env)).map
        (fun result => (result.2.trace.drop (s.trace.length + 1)).take 1) =
          .ok [.write .portDaemon 4 (identRequest s.sIn.sa) (.wrote 11)] := by
  let started := finalState ((start .trusting).run .blank)
  let admitted := finalState ((portDaemon .trusting).run started)
  have hstart : (start .trusting).run .blank = .ok ((), started) := by decide +kernel
  have haccepts : Accepts .trusting started :=
    ⟨nextFd started, _, rfl, nextFd_fresh started⟩
  have hadmitted : (portDaemon .trusting).run started = .ok ((), admitted) := by
    decide +kernel
  have hfault : (portDaemon (.refusing true true)).run admitted =
      .error (.fault .badDescriptor) := by
    decide +kernel
  refine ⟨.refusing true true, admitted, ⟨.trusting, started, hstart,
    .single (.portDaemon haccepts trivial hadmitted)⟩, ?_, refusing_not_accepts true true _,
    ?_, hfault, ?_, ?_⟩
  · decide +kernel
  · rintro ⟨next, events, hrun, _⟩
    rw [hfault] at hrun
    cases hrun
  · decide +kernel
  · decide +kernel

end DialdTop
