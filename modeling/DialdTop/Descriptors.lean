import DialdTop.QueueInvariant

/-!
# The descriptors the server holds

The server holds its listening socket, the control FIFO, the monitor FIFO while
it is open, and one descriptor for each queued port.  All of them are different
and open.  What is open and not held has leaked: this happens when identd
cannot be reached, since only the other branch of `port_daemon` closes the
socket made for it.
-/

namespace DialdTop

open Program
open Relation (ReflTransGen)

/-! ## Admission of a port -/

/-- The port which `port_daemon` has prepared is on the queue, or closed. -/
inductive Admitted (s : Server) (p : Port) : Server → Prop
  | queued : p.fd < fdSetSize → Admitted s p (s.enqueued p)
  | refused : Admitted s p { s with kernel := s.kernel.erase p.fd }

theorem Admitted.sIn {s : Server} {p : Port} {next : Server} (h : Admitted s p next) :
    next.sIn = s.sIn := by
  cases h with
  | queued => rfl
  | refused => rfl

theorem Admitted.trace {s : Server} {p : Port} {next : Server} (h : Admitted s p next) :
    next.trace = s.trace := by
  cases h with
  | queued => rfl
  | refused => rfl

theorem enqueueIncoming_cases
    {env : Env} {s next : Server} {u : Unit}
    (hrun : (enqueueIncoming env).run s = .ok (u, next)) : Admitted s s.sIn next := by
  unfold enqueueIncoming at hrun
  rw [Prog.run_bind, Prog.run_within, run_look] at hrun
  rw [Prog.run_bind_eq_ok] at hrun
  rcases hrun with ⟨queued, mid, henqueue, hrun⟩
  rcases portEnqueue_cases henqueue with ⟨hqueued, hmid⟩ | ⟨hqueued, hrange, hmid⟩
  · simp [hqueued, sysClose] at hrun
    rw [← hrun, hmid]
    exact .refused
  · simp [hqueued] at hrun
    rw [← hrun, hmid]
    exact .queued hrange.2

/-- `p` carries the rights which `auth_check` gives to it under `aq`. -/
def Graded (aq : List AuthData) (p : Port) : Prop :=
  (p.userid = none ∧ p.flag = flagRead) ∨
    ∃ granted, p.userid.isSome ∧ p.granted aq = .ok granted ∧
      p.flag = if granted then flagRead ||| flagWrite else flagRead

theorem greet_cases
    {env : Env} {userid : List Byte} {granted : Bool} {s next : Server} {u : Unit}
    (hrun : (greet env userid granted).run s = .ok (u, next)) :
    ∃ text result,
      let p : Port :=
        { s.sIn with flag := if granted then flagRead ||| flagWrite else flagRead }
      next = { s with sIn := p }.log (.write .portDaemon p.fd text result) := by
  unfold greet at hrun
  rw [Prog.run_bind_eq_ok] at hrun
  rcases hrun with ⟨text, mid, htext, hrun⟩
  rcases attempt_cases htext with ⟨_, hmid⟩
  subst mid
  simp only [Prog.run_bind, run_update, run_look, sysWrite, Prog.run_act, Prog.run_pure,
    Except.ok.injEq, Prod.mk.injEq] at hrun
  exact ⟨text, _, hrun.2.symm⟩

theorem admitWithoutIdent_cases
    {env : Env} {s next : Server} {u : Unit}
    (hrun : (admitWithoutIdent env).run s = .ok (u, next)) :
    ∃ result,
      let p : Port := { s.sIn with flag := flagRead, userid := none }
      Admitted ({ s with sIn := p }.log
        (.write .portDaemon p.fd unauthorizedLine result)) p next := by
  unfold admitWithoutIdent at hrun
  simp only [Prog.run_bind, run_update, run_look, sysWrite, Prog.run_act] at hrun
  exact ⟨_, enqueueIncoming_cases hrun⟩

theorem askIdent_cases
    {env : Env} {sIdent : Int} {s next : Server} {userid : List Byte}
    (hrun : (askIdent env sIdent).run s = .ok (userid, next)) :
    ∃ request result reply,
      next = { s with
        sIn := { s.sIn with userid := some userid }
        kernel := s.kernel.erase sIdent
        trace := s.trace ++
          [.write .portDaemon sIdent request result, .read sIdent reply] } := by
  unfold askIdent at hrun
  rw [Prog.run_bind_eq_ok] at hrun
  rcases hrun with ⟨request, mid, hrequest, hrun⟩
  rcases attempt_cases hrequest with ⟨_, hmid⟩
  subst mid
  rw [Prog.run_bind_eq_ok] at hrun
  rcases hrun with ⟨result, mid, hwrite, hrun⟩
  rcases sysWrite_cases hwrite with ⟨_, hmid⟩
  subst mid
  rw [Prog.run_bind_eq_ok] at hrun
  rcases hrun with ⟨reply, mid, hread, hrun⟩
  rcases sysRead_cases hread with ⟨_, hmid⟩
  subst mid
  simp only [sysClose] at hrun
  rw [Prog.run_bind, run_update] at hrun
  rw [Prog.run_bind_eq_ok] at hrun
  rcases hrun with ⟨line, mid, hline, hrun⟩
  rcases attempt_cases hline with ⟨_, hmid⟩
  subst mid
  simp only [Prog.run_bind, run_update, Prog.run_pure, Except.ok.injEq, Prod.mk.injEq] at hrun
  refine ⟨request, result, reply, ?_⟩
  rw [← hrun.2, hrun.1]
  simp [Server.log]

def Server.accepted (s : Server) (fd : Int) (sa : SockAddr) : Server :=
  { s with
    sIn := { s.sIn with fd := fd, sa := sa }
    kernel := insert fd s.kernel }

/-- The socket `sIdent` is made for the connection on `fd`, and `connect`
fails. -/
def IdentFails (env : Env) (s : Server) (fd : Int) (sa : SockAddr) (sIdent : Int) : Prop :=
  let accepted := s.accepted fd sa
  env.accept s = some (fd, sa) ∧ env.socket accepted = some sIdent ∧
    accepted.fresh sIdent ∧
      env.connect { accepted with kernel := insert sIdent accepted.kernel } sIdent = false

/-- The descriptors open in the kernel while `port_daemon` admits `p`. -/
inductive Accepted (env : Env) (s : Server) (p : Port) : Finset Int → Prop
  | clean : (∀ sIdent, ¬ IdentFails env s p.fd p.sa sIdent) →
      Accepted env s p (insert p.fd s.kernel)
  | leaking {sIdent : Int} : IdentFails env s p.fd p.sa sIdent →
      Accepted env s p (insert sIdent (insert p.fd s.kernel))

theorem acceptPort_run
    {env : Env} {s : Server} {fd : Int} {sa : SockAddr}
    (haccept : env.accept s = some (fd, sa)) (hfresh : s.fresh fd) :
    (acceptPort env).run s = .ok ((), s.accepted fd sa) := by
  simp [acceptPort, haccept, hfresh, Server.accepted]

theorem portDaemon_cases
    {env : Env} {s next : Server} {u : Unit} (haccepts : Accepts env s)
    (hrun : (portDaemon env).run s = .ok (u, next)) :
    ∃ p events kernel, s.fresh p.fd ∧ Graded s.aq p ∧
      (∀ writer fd text result, .write writer fd text result ∈ events →
        writer = .portDaemon ∧ s.fresh fd) ∧
      env.accept s = some (p.fd, p.sa) ∧ Accepted env s p kernel ∧
      Admitted
        { s with sIn := p, kernel := kernel, trace := s.trace ++ events } p next := by
  rcases haccepts with ⟨fd, sa, haccept, hfresh⟩
  unfold portDaemon at hrun
  rw [Prog.run_bind_eq_ok] at hrun
  rcases hrun with ⟨_, accepted, haccepted, hrun⟩
  rw [acceptPort_run haccept hfresh] at haccepted
  simp only [Except.ok.injEq, Prod.mk.injEq, true_and] at haccepted
  rw [Prog.run_bind_eq_ok] at hrun
  rcases hrun with ⟨addr, mid, hlook, hrun⟩
  rcases look_cases hlook with ⟨_, hmid⟩
  subst mid
  rw [Prog.run_bind_eq_ok] at hrun
  rcases hrun with ⟨sIdent, called, hsocket, hrun⟩
  rw [Prog.run_bind_eq_ok] at hrun
  rcases hrun with ⟨success, connected, hconnect, hrun⟩
  simp only [sysConnect, Prog.run_act, Except.ok.injEq, Prod.mk.injEq] at hconnect
  rcases hconnect with ⟨hsuccess, hconnected⟩
  rw [hsuccess] at hconnected
  subst haccepted
  by_cases hident : success = true
  · rw [if_pos hident] at hrun
    rw [hident, Bool.and_eq_true, decide_eq_true_eq] at hsuccess
    rcases allocate_cases hsocket with ⟨hfailed, _, _⟩ | ⟨hanswer, hsIdent, hcalled⟩
    · exact absurd hfailed hsuccess.1
    rw [Prog.run_bind_eq_ok] at hrun
    rcases hrun with ⟨userid, asked, hask, hrun⟩
    rcases askIdent_cases hask with ⟨request, result, reply, hasked⟩
    rw [Prog.run_bind_eq_ok] at hrun
    rcases hrun with ⟨granted, mid, hcheck, hrun⟩
    rcases attempt_cases hcheck with ⟨hgranted, hmid⟩
    subst mid
    rw [Prog.run_bind_eq_ok] at hrun
    rcases hrun with ⟨_, greeted, hgreet, hrun⟩
    rw [Prog.run_within] at hgreet
    rcases greet_cases hgreet with ⟨text, written, hgreeted⟩
    have hadmitted := enqueueIncoming_cases hrun
    subst hcalled hconnected hasked hgreeted
    have hkernel : (insert sIdent (insert fd s.kernel)).erase sIdent = insert fd s.kernel :=
      Finset.erase_insert hsIdent.2
    have hfreshIdent : s.fresh sIdent :=
      ⟨hsIdent.1, fun hmem => hsIdent.2 (Finset.mem_insert_of_mem hmem)⟩
    let p : Port :=
      { fd := fd, sa := sa, userid := some userid,
        flag := if granted then flagRead ||| flagWrite else flagRead }
    have hcheck : authCheck s.aq (some userid) sa.sinAddr = .ok granted := hgranted
    have hreached : ∀ sIdent, ¬ IdentFails env s fd sa sIdent := by
      rintro other ⟨_, hother, _, hfails⟩
      rw [hanswer] at hother
      cases hother
      rw [hsuccess.2] at hfails
      cases hfails
    refine ⟨p, [.connect sIdent addr success, .write .portDaemon sIdent request result,
      .read sIdent reply, .write .portDaemon fd text written], insert fd s.kernel, hfresh,
      Or.inr ⟨granted, rfl, hcheck, rfl⟩, ?_, haccept, .clean hreached, ?_⟩
    · intro writer fd' text' result' hmem
      simp at hmem
      rcases hmem with ⟨hwriter, hfd, _⟩ | ⟨hwriter, hfd, _⟩
      · rw [hfd]
        exact ⟨hwriter, hfreshIdent⟩
      · rw [hfd]
        exact ⟨hwriter, hfresh⟩
    · simpa [Server.log, Server.accepted, hkernel, p] using hadmitted
  · rw [if_neg hident] at hrun
    rcases admitWithoutIdent_cases hrun with ⟨written, hadmitted⟩
    subst hconnected
    let p : Port := { fd := fd, sa := sa, userid := none, flag := flagRead }
    let events : List Event :=
      [.connect sIdent addr success, .write .portDaemon fd unauthorizedLine written]
    have hwrites : ∀ writer fd' text result, .write writer fd' text result ∈ events →
        writer = .portDaemon ∧ s.fresh fd' := by
      intro writer fd' text result hmem
      simp [events] at hmem
      rw [hmem.2.1]
      exact ⟨hmem.1, hfresh⟩
    rcases allocate_cases hsocket with ⟨_, hnone, hcalled⟩ | ⟨hanswer, hsIdent, hcalled⟩
    · subst hcalled
      have hreached : ∀ sIdent, ¬ IdentFails env s fd sa sIdent := by
        rintro other ⟨_, hother, hfresh', _⟩
        exact hnone other hother hfresh'
      refine ⟨p, events, insert fd s.kernel, hfresh, Or.inl ⟨rfl, rfl⟩, hwrites,
        haccept, .clean hreached, ?_⟩
      simpa [Server.log, Server.accepted, p, events] using hadmitted
    · subst hcalled
      have hopen : sIdent ≠ -1 := by
        have hnonneg := hsIdent.1
        omega
      have hfails : IdentFails env s fd sa sIdent := by
        refine ⟨haccept, hanswer, hsIdent, ?_⟩
        simpa [hopen, hident] using hsuccess
      refine ⟨p, events, insert sIdent (insert fd s.kernel), hfresh,
        Or.inl ⟨rfl, rfl⟩, hwrites, haccept, .leaking hfails, ?_⟩
      simpa [Server.log, Server.accepted, p, events] using hadmitted

/-! ## Runs of the server -/

/-- The steps of the server between which control is at its main loop.  The
parameters restrict the calls of `port_daemon` and of `fifo_server`. -/
inductive ServerStep (daemon : Env → Server → Prop) (relayed : Server → Server → Prop) :
    Server → Server → Prop
  | doSelect {env : Env} {s next : Server} :
      (doSelect env).run s = .ok ((), next) → ServerStep daemon relayed s next
  | portDaemon {env : Env} {s next : Server} : Accepts env s → daemon env s →
      (portDaemon env).run s = .ok ((), next) → ServerStep daemon relayed s next
  | portServer {env : Env} {fuel : ℕ} {s next : Server} (ready : Finset Int)
      (count : Int) :
      (portServer env fuel).run
        { s with ps := { s.ps with sel := ready, selcount := count } } =
          .ok ((), next) → ServerStep daemon relayed s next
  | fifoServer {env : Env} {fuel : ℕ} {s next : Server} :
      (fifoServer env fuel).run s = .ok ((), next) → relayed s next →
        ServerStep daemon relayed s next
  | rereadConf {env : Env} {s next : Server} :
      (rereadConf env).run s = .ok ((), next) → ServerStep daemon relayed s next

/-! ## Descriptors in use -/

/-- A descriptor variable of the server, which is -1 when nothing is open. -/
def heldIn (fd : Int) : List Int :=
  if fd = -1 then [] else [fd]

def Server.held (s : Server) : List Int :=
  s.sList :: (heldIn s.controlfd ++ heldIn s.monitorfd ++ s.pq.map Port.fd)

/-- Open descriptors to which the server has no access any more. -/
def Server.leaked (s : Server) : Finset Int :=
  s.kernel \ s.held.toFinset

structure DescriptorInv (s : Server) : Prop where
  distinct : s.held.Nodup
  isOpen : ∀ fd ∈ s.held, fd ∈ s.kernel
  nonneg : ∀ fd ∈ s.kernel, 0 ≤ fd

/-- The invariant together with the set of leaked descriptors, which most steps
leave as it is. -/
structure Balanced (leaked : Finset Int) (s : Server) : Prop extends DescriptorInv s where
  leaks : s.leaked = leaked

variable {leaked : Finset Int}

theorem Balanced.congr
    {s t : Server} (hinv : Balanced leaked s) (hheld : t.held = s.held)
    (hkernel : t.kernel = s.kernel) : Balanced leaked t := by
  refine ⟨⟨?_, ?_, ?_⟩, ?_⟩
  · rw [hheld]
    exact hinv.distinct
  · rw [hheld, hkernel]
    exact hinv.isOpen
  · rw [hkernel]
    exact hinv.nonneg
  · rw [← hinv.leaks, Server.leaked, Server.leaked, hheld, hkernel]

theorem Balanced.log {s : Server} (hinv : Balanced leaked s) (event : Event) :
    Balanced leaked (s.log event) :=
  hinv.congr rfl rfl

theorem Balanced.acquire
    {s t : Server} (hinv : Balanced leaked s) {fd : Int} (hfresh : s.fresh fd)
    (hheld : t.held.Perm (fd :: s.held)) (hkernel : t.kernel = insert fd s.kernel) :
    Balanced leaked t := by
  have hnew : fd ∉ s.held := fun hmem => hfresh.2 (hinv.isOpen fd hmem)
  refine ⟨⟨?_, ?_, ?_⟩, ?_⟩
  · rw [hheld.nodup_iff, List.nodup_cons]
    exact ⟨hnew, hinv.distinct⟩
  · intro x hx
    rw [hkernel, Finset.mem_insert]
    rcases List.mem_cons.mp (hheld.mem_iff.mp hx) with hx | hx
    · exact Or.inl hx
    · exact Or.inr (hinv.isOpen x hx)
  · intro x hx
    rw [hkernel, Finset.mem_insert] at hx
    rcases hx with hx | hx
    · rw [hx]
      exact hfresh.1
    · exact hinv.nonneg x hx
  · rw [← hinv.leaks]
    ext x
    simp only [Server.leaked, hkernel, Finset.mem_sdiff, Finset.mem_insert,
      List.mem_toFinset, hheld.mem_iff, List.mem_cons]
    constructor
    · rintro ⟨hx | hx, hnot⟩
      · exact absurd (Or.inl hx) hnot
      · exact ⟨hx, fun hmem => hnot (Or.inr hmem)⟩
    · rintro ⟨hx, hnot⟩
      refine ⟨Or.inr hx, ?_⟩
      rintro (hfd | hmem)
      · rw [hfd] at hx
        exact hfresh.2 hx
      · exact hnot hmem

theorem Balanced.release
    {s t : Server} (hinv : Balanced leaked s) {fd : Int}
    (hheld : s.held.Perm (fd :: t.held)) (hkernel : t.kernel = s.kernel.erase fd) :
    Balanced leaked t := by
  have hdistinct := hheld.nodup_iff.mp hinv.distinct
  rw [List.nodup_cons] at hdistinct
  refine ⟨⟨hdistinct.2, ?_, ?_⟩, ?_⟩
  · intro x hx
    rw [hkernel, Finset.mem_erase]
    refine ⟨?_, hinv.isOpen x (hheld.mem_iff.mpr (List.mem_cons_of_mem fd hx))⟩
    intro hfd
    rw [hfd] at hx
    exact hdistinct.1 hx
  · intro x hx
    rw [hkernel] at hx
    exact hinv.nonneg x (Finset.mem_of_mem_erase hx)
  · rw [← hinv.leaks]
    ext x
    simp only [Server.leaked, hkernel, Finset.mem_sdiff, Finset.mem_erase,
      List.mem_toFinset, hheld.mem_iff, List.mem_cons]
    tauto

theorem Balanced.leak
    {s t : Server} (hinv : Balanced leaked s) {fd : Int} (hfresh : s.fresh fd)
    (hheld : t.held = s.held) (hkernel : t.kernel = insert fd s.kernel) :
    Balanced (insert fd leaked) t := by
  have hnew : fd ∉ s.held := fun hmem => hfresh.2 (hinv.isOpen fd hmem)
  refine ⟨⟨?_, ?_, ?_⟩, ?_⟩
  · rw [hheld]
    exact hinv.distinct
  · intro x hx
    rw [hheld] at hx
    rw [hkernel]
    exact Finset.mem_insert_of_mem (hinv.isOpen x hx)
  · intro x hx
    rw [hkernel, Finset.mem_insert] at hx
    rcases hx with hx | hx
    · rw [hx]
      exact hfresh.1
    · exact hinv.nonneg x hx
  · rw [← hinv.leaks, Server.leaked, Server.leaked, hheld, hkernel]
    rw [Finset.insert_sdiff_of_notMem]
    rw [List.mem_toFinset]
    exact hnew

theorem Started.balanced {s : Server} (hstart : Started s) : Balanced ∅ s := by
  have hheld : s.held = s.sList :: heldIn s.controlfd := by
    simp [Server.held, hstart.monitorfd, hstart.pq, heldIn]
  have hkernel : s.kernel = s.held.toFinset := by
    rw [hstart.kernel, hheld, heldIn]
    split <;> simp
  refine ⟨⟨?_, ?_, hstart.nonneg⟩, ?_⟩
  · rw [hheld, heldIn]
    split
    · simp
    · simpa using fun heq => hstart.controlfd heq.symm
  · intro fd hfd
    rw [hkernel, List.mem_toFinset]
    exact hfd
  · rw [Server.leaked, hkernel, Finset.sdiff_self]

theorem held_perm_port {s t : Server} {fd : Int} (hsList : t.sList = s.sList)
    (hcontrolfd : t.controlfd = s.controlfd) (hmonitorfd : t.monitorfd = s.monitorfd)
    (hpq : (s.pq.map Port.fd).Perm (fd :: t.pq.map Port.fd)) :
    s.held.Perm (fd :: t.held) := by
  unfold Server.held
  rw [hsList, hcontrolfd, hmonitorfd]
  refine List.Perm.trans ?_ (List.Perm.swap _ _ _)
  refine List.Perm.cons _ ?_
  exact (hpq.append_left _).trans List.perm_middle

theorem Balanced.closePort
    {s next : Server} {c : ℕ} {u : Unit} (hinv : Balanced leaked s)
    (hrun : (closePort c).run s = .ok (u, next)) : Balanced leaked next := by
  rcases closePort_cases hrun with ⟨p, _, ⟨_, hnext⟩ | ⟨found, hfound, _, hnext⟩⟩
  · rw [hnext]
    exact hinv
  · rw [hnext]
    refine hinv.release (held_perm_port rfl rfl rfl ?_) rfl
    rcases queue_split hfound with ⟨front, rest, hpq, hlen⟩
    subst found
    simp only [Server.closed, hpq, eraseIdx_append_cons]
    exact List.perm_middle.map Port.fd

theorem held_modify {s t : Server} {c : ℕ} {f : Port → Port}
    (hpq : t.pq = s.pq.modify c f) (hfd : ∀ p, (f p).fd = p.fd)
    (hsList : t.sList = s.sList) (hcontrolfd : t.controlfd = s.controlfd)
    (hmonitorfd : t.monitorfd = s.monitorfd) : t.held = s.held := by
  have hmap : t.pq.map Port.fd = s.pq.map Port.fd := by
    rw [hpq]
    apply List.ext_getElem?
    intro i
    simp only [List.getElem?_map, List.getElem?_modify]
    cases s.pq[i]? with
    | none => rfl
    | some p =>
        by_cases hi : c = i
        · simp [hi, hfd]
        · simp [hi]
  unfold Server.held
  rw [hmap, hsList, hcontrolfd, hmonitorfd]

theorem Balanced.monitorOpen
    {env : Env} {s next : Server} {u : Unit} (hinv : Balanced leaked s)
    (hrun : (monitorOpen env).run s = .ok (u, next)) : Balanced leaked next := by
  rcases monitorOpen_cases hrun with ⟨_, hnext⟩ | ⟨hclosed, path, hfailed | hopened⟩
  · rw [hnext]
    exact hinv
  · rw [hfailed.1]
    refine hinv.congr ?_ rfl
    simp [Server.monitorFailed, Server.held, hclosed]
  · rcases hopened with ⟨fd, result, _, hfresh, hnext⟩
    rw [hnext]
    have hfd : fd ≠ -1 := by
      have hnonneg := hfresh.1
      omega
    refine hinv.acquire hfresh ?_ rfl
    simp only [Server.monitorOpened, Server.held, heldIn, Server.log, hclosed, hfd,
      if_true, if_false, List.append_nil]
    refine List.Perm.trans ?_ (List.Perm.swap _ _ _)
    refine List.Perm.cons _ ?_
    rw [List.append_assoc]
    exact List.perm_middle

theorem Balanced.command
    {env : Env} {line : List Byte} {c : ℕ} {p : Port} {s next : Server} {closed : Bool}
    (hinv : Balanced leaked s) (hcommand : Command env line c p s closed next) :
    Balanced leaked next := by
  have hon : Balanced leaked (s.monitorOn c) :=
    hinv.congr (held_modify rfl Port.monitorOn_fd rfl rfl rfl) rfl
  cases hcommand with
  | ignored => exact hinv
  | monitorOff =>
      exact hinv.congr (held_modify rfl Port.monitorOff_fd rfl rfl rfl) rfl
  | monitorOn => exact hon
  | monitorOpen _ _ hopen => exact hon.monitorOpen hopen
  | close hclose => exact hinv.closePort hclose
  | control => exact hinv.log _
  | refuse => exact hinv.log _

theorem Balanced.serveEffect
    {env : Env} {s next : Server} (heffect : ServeEffect env s next)
    (hinv : Balanced leaked s) : Balanced leaked next := by
  cases heffect with
  | hangup _ _ hclose => exact (hinv.log _).closePort hclose
  | command _ hcommand => exact (hinv.log _).command hcommand

theorem Balanced.monitorClosed
    {s : Server} (hinv : Balanced leaked s) (hopen : s.monitorfd ≠ -1) :
    Balanced leaked s.monitorClosed := by
  refine hinv.release ?_ rfl
  simp only [Server.monitorClosed, Server.held, heldIn, hopen, if_true, if_false,
    List.append_nil]
  refine List.Perm.trans ?_ (List.Perm.swap _ _ _)
  refine List.Perm.cons _ ?_
  rw [List.append_assoc]
  exact List.perm_middle

theorem Balanced.relayEffect
    {s next : Server} (heffect : RelayEffect s next) (hinv : Balanced leaked s) :
    Balanced leaked next := by
  cases heffect with
  | drained => exact hinv.log _
  | relayed => exact hinv.log _
  | close hclose => exact hinv.closePort hclose
  | monitorClose _ hopen => exact hinv.monitorClosed hopen

/-! ## Leaks -/

/-- A call of `port_daemon` leaks the socket for identd when `connect` fails,
and nothing else. -/
theorem Balanced.portDaemon
    {env : Env} {s next : Server} {u : Unit} (hinv : Balanced leaked s)
    (haccepts : Accepts env s) (hrun : (portDaemon env).run s = .ok (u, next)) :
    ∃ fd sa, env.accept s = some (fd, sa) ∧
      (((∀ sIdent, ¬ IdentFails env s fd sa sIdent) ∧ Balanced leaked next) ∨
        ∃ sIdent, IdentFails env s fd sa sIdent ∧
          Balanced (insert sIdent leaked) next) := by
  rcases portDaemon_cases haccepts hrun with
    ⟨p, events, kernel, hfresh, _, _, haccept, haccepted, hadmitted⟩
  refine ⟨p.fd, p.sa, haccept, ?_⟩
  have hrefused : (insert p.fd s.kernel).erase p.fd = s.kernel :=
    Finset.erase_insert hfresh.2
  have hqueued : Balanced leaked
      (({ s with kernel := insert p.fd s.kernel } : Server).enqueued p) :=
    hinv.acquire hfresh (held_perm_port rfl rfl rfl (List.Perm.refl _)) rfl
  cases haccepted with
  | clean hreached =>
      refine Or.inl ⟨hreached, ?_⟩
      cases hadmitted with
      | queued => exact hqueued.congr rfl rfl
      | refused => exact hinv.congr rfl hrefused
  | leaking hfails =>
      rename_i sIdent
      refine Or.inr ⟨sIdent, hfails, ?_⟩
      have hsIdent := hfails.2.2.1
      have hfreshIdent : s.fresh sIdent :=
        ⟨hsIdent.1, fun hmem => hsIdent.2 (Finset.mem_insert_of_mem hmem)⟩
      have hne : sIdent ≠ p.fd := by
        intro heq
        exact hsIdent.2 (by simp [Server.accepted, heq])
      cases hadmitted with
      | queued => exact hqueued.leak hsIdent rfl rfl
      | refused =>
          refine hinv.leak hfreshIdent rfl ?_
          rw [Finset.erase_insert_of_ne hne, hrefused]

/-- When a connection is accepted, the socket for identd can be connected or
cannot be made at all. -/
def ReachesIdent (env : Env) (s : Server) : Prop :=
  ∀ fd sa sIdent, ¬ IdentFails env s fd sa sIdent

/-- Leaked descriptors stay leaked, and none is added while identd can be
reached. -/
theorem Balanced.serverStep
    {daemon : Env → Server → Prop} {relayed : Server → Server → Prop} {s next : Server}
    (hinv : Balanced leaked s) (hstep : ServerStep daemon relayed s next) :
    ∃ lost, Balanced lost next ∧ leaked ⊆ lost ∧
      ((∀ env s, daemon env s → ReachesIdent env s) → lost = leaked) := by
  have hkeep : Balanced leaked next → ∃ lost, Balanced lost next ∧ leaked ⊆ lost ∧
      ((∀ env s, daemon env s → ReachesIdent env s) → lost = leaked) :=
    fun hnext => ⟨leaked, hnext, Finset.Subset.refl _, fun _ => rfl⟩
  cases hstep with
  | doSelect hrun =>
      have hselected := (doSelect_cases hrun).server
      rw [hselected] at hkeep ⊢
      exact hkeep (hinv.congr rfl rfl)
  | portDaemon haccepts hdaemon hrun =>
      rcases hinv.portDaemon haccepts hrun with
        ⟨fd, sa, _, ⟨_, hnext⟩ | ⟨sIdent, hfails, hnext⟩⟩
      · exact hkeep hnext
      · refine ⟨_, hnext, Finset.subset_insert _ _, ?_⟩
        intro hident
        exact absurd hfails (hident _ _ hdaemon fd sa sIdent)
  | portServer ready count hrun =>
      have hselected : Balanced leaked
          { s with ps := { s.ps with sel := ready, selcount := count } } :=
        hinv.congr rfl rfl
      exact hkeep (invariant_of_effects (fun _ _ heffect ha => ha.serveEffect heffect)
        (portServer_effects hrun) hselected)
  | fifoServer hrun =>
      exact hkeep (invariant_of_effects (fun _ _ heffect ha => ha.relayEffect heffect)
        (fifoServer_effects hrun) hinv)
  | rereadConf hrun =>
      rcases rereadConf_cases hrun with ⟨aq, events, _, hnext⟩
      apply hkeep
      rw [hnext]
      refine hinv.congr ?_ rfl
      simp [Server.held, Function.comp_def, Port.regraded]

theorem DescriptorInv.serverStep
    {daemon : Env → Server → Prop} {relayed : Server → Server → Prop} {s next : Server}
    (hinv : DescriptorInv s) (hstep : ServerStep daemon relayed s next) :
    DescriptorInv next := by
  have hbalanced : Balanced s.leaked s := ⟨hinv, rfl⟩
  rcases hbalanced.serverStep hstep with ⟨_, hnext, _⟩
  exact hnext.toDescriptorInv

theorem kernel_eq_held_of_reachable
    {env : Env} {s next : Server}
    (hstart : (start env).run Server.blank = .ok ((), s))
    (hsteps : ReflTransGen (ServerStep ReachesIdent fun _ _ => True) s next) :
    next.kernel = next.held.toFinset := by
  have hstep : ∀ a b, ServerStep ReachesIdent (fun _ _ => True) a b →
      Balanced ∅ a → Balanced ∅ b := by
    intro a b hab ha
    rcases ha.serverStep hab with ⟨lost, hb, _, hlost⟩
    rw [hlost fun _ _ hident => hident] at hb
    exact hb
  have hinv : Balanced ∅ next :=
    invariant_of_effects hstep hsteps (start_cases hstart).balanced
  apply Finset.Subset.antisymm
  · rw [← Finset.sdiff_eq_empty_iff_subset]
    exact hinv.leaks
  · intro fd hfd
    rw [List.mem_toFinset] at hfd
    exact hinv.isOpen fd hfd

theorem kernel_eq_held_of_reachable_admitted :
    (finalState ((portDaemon .obliging).run
      (finalState ((start .obliging).run .blank)))).kernel = {1, 2, 3} := by
  let started := finalState ((start .obliging).run .blank)
  let admitted := finalState ((portDaemon .obliging).run started)
  have hstart : (start .obliging).run .blank = .ok ((), started) := by decide
  have hadmitted : (portDaemon .obliging).run started = .ok ((), admitted) := by
    decide +kernel
  have haccepts : Accepts .obliging started :=
    ⟨nextFd started, _, rfl, nextFd_fresh started⟩
  have hident : ReachesIdent .obliging started := by
    rintro fd sa sIdent ⟨_, _, _, hfails⟩
    cases hfails
  have hheld :=
    kernel_eq_held_of_reachable hstart (.single (.portDaemon haccepts hident hadmitted))
  rw [hheld]
  decide +kernel

/-- A host on which identd does not run. -/
def Env.withoutIdent : Env :=
  { Env.obliging with connect := fun _ _ => false }

theorem exists_reachable_leak :
    ∃ started next, (start .withoutIdent).run .blank = .ok ((), started) ∧
      ServerStep (fun _ _ => True) (fun _ _ => True) started next ∧
        next.kernel ≠ next.held.toFinset := by
  let started := finalState ((start .withoutIdent).run .blank)
  have hstart : (start .withoutIdent).run .blank = .ok ((), started) := by decide
  have haccepts : Accepts .withoutIdent started :=
    ⟨nextFd started, _, rfl, nextFd_fresh started⟩
  refine ⟨started, finalState ((portDaemon .withoutIdent).run started), hstart,
    .portDaemon haccepts trivial ?_, ?_⟩
  · decide +kernel
  · decide +kernel

end DialdTop
