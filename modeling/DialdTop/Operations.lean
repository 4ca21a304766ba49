import DialdTop.MainLoop
import Mathlib.Data.Finset.Lattice.Fold
import Mathlib.Order.Lattice.Nat

/-!
# What the operations of the server do to its state

Each function which changes the queue is executed once.  Its result is stated
with the state updates below, and no later proof unfolds the function again.
Splitting the queue at a position turns the removal and the change of one port
into equations on lists.
-/

namespace DialdTop

open Program

/-! ## State updates -/

def Server.enqueued (s : Server) (p : Port) : Server :=
  { s with
    pq := p :: s.pq
    ps := { s.ps with
      fullcount := s.ps.fullcount + 1
      full := insert p.fd s.ps.full
      maxfd := if p.fd > s.ps.maxfd then p.fd else s.ps.maxfd } }

/-- The state after `close_port` has found the port `p` at position `c`. -/
def Server.closed (s : Server) (c : ℕ) (p : Port) : Server :=
  let cleared :=
    { s.ps with fullcount := s.ps.fullcount - 1, full := s.ps.full.erase p.fd }
  { s with
    pq := s.pq.eraseIdx c
    ps := { cleared with maxfd := adjustMaxfd cleared p.fd }
    monitorcount := if p.has flagMonitor then s.monitorcount - 1 else s.monitorcount
    kernel := s.kernel.erase p.fd }

def Port.monitorOff (p : Port) : Port :=
  { p with flag := p.flag &&& ~~~flagMonitor }

def Port.monitorOn (p : Port) : Port :=
  { p with flag := p.flag ||| flagMonitor }

@[simp] theorem Port.monitorOff_fd (p : Port) : p.monitorOff.fd = p.fd := rfl

@[simp] theorem Port.monitorOn_fd (p : Port) : p.monitorOn.fd = p.fd := rfl

@[simp] theorem Port.monitorOff_has_monitor (p : Port) :
    p.monitorOff.has flagMonitor = false := by
  simp [Port.has, Port.monitorOff, BitVec.and_assoc]

@[simp] theorem Port.monitorOn_has_monitor (p : Port) :
    p.monitorOn.has flagMonitor = true := by
  have hmonitor : ¬ flagMonitor = 0#32 := by decide
  simp [Port.has, Port.monitorOn, BitVec.and_or_distrib_right, hmonitor]

@[simp] theorem Port.monitorOff_has_write (p : Port) :
    p.monitorOff.has flagWrite = p.has flagWrite := by
  have hmask : ~~~flagMonitor &&& flagWrite = flagWrite := by decide
  simp [Port.has, Port.monitorOff, BitVec.and_assoc, hmask]

@[simp] theorem Port.monitorOn_has_write (p : Port) :
    p.monitorOn.has flagWrite = p.has flagWrite := by
  have hmask : flagMonitor &&& flagWrite = 0 := by decide
  simp [Port.has, Port.monitorOn, BitVec.and_or_distrib_right, hmask]

def Server.monitorOff (s : Server) (c : ℕ) : Server :=
  { s with
    pq := s.pq.modify c Port.monitorOff
    monitorcount := s.monitorcount - 1 }

def Server.monitorOn (s : Server) (c : ℕ) : Server :=
  { s with
    pq := s.pq.modify c Port.monitorOn
    monitorcount := s.monitorcount + 1 }

/-- The state in which `monitor_open` has stored its path and found no FIFO. -/
def Server.monitorFailed (s : Server) (path : List Byte) : Server :=
  { s with monitor := path, monitorfd := -1 }

def Server.monitorOpened
    (s : Server) (path : List Byte) (fd : Int) (result : WriteResult) : Server :=
  { s.log (.write .monitorOpen s.controlfd (monitorLine path) result) with
    monitor := path
    monitorfd := fd
    kernel := insert fd s.kernel
    fs := { s.fs with fullcount := 1, full := {fd}, maxfd := fd } }

def Server.monitorClosed (s : Server) : Server :=
  { s with
    kernel := s.kernel.erase s.monitorfd
    monitorfd := -1
    fs := .empty }

/-! ## Single statements -/

theorem look_cases
    {f : Server → α} {s next : Server} {a : α}
    (hrun : (look f).run s = .ok (a, next)) : a = f s ∧ next = s := by
  simp only [run_look, Except.ok.injEq, Prod.mk.injEq] at hrun
  exact ⟨hrun.1.symm, hrun.2.symm⟩

theorem attempt_cases
    {f : Server → Except Halt α} {s next : Server} {a : α}
    (hrun : (attempt f).run s = .ok (a, next)) :
    f s = .ok a ∧ next = s := by
  rw [run_attempt] at hrun
  cases hvalue : f s with
  | error reason => simp [hvalue, Except.map] at hrun
  | ok value =>
      simp only [hvalue, Except.map, Except.ok.injEq, Prod.mk.injEq] at hrun
      rw [hrun.1]
      exact ⟨rfl, hrun.2.symm⟩

theorem sysRead_cases
    {env : Env} {fd : Int} {count : ℕ} {s next : Server} {chunk : Option (List Byte)}
    (hrun : (sysRead env fd count).run s = .ok (chunk, next)) :
    chunk = (env.read s fd).map (·.take count) ∧ next = s.log (.read fd chunk) := by
  simp only [sysRead, Prog.run_act, Except.ok.injEq, Prod.mk.injEq] at hrun
  rw [← hrun.1]
  exact ⟨rfl, hrun.2.symm⟩

theorem sysWrite_cases
    {env : Env} {writer : Writer} {fd : Int} {text : List Byte} {s next : Server}
    {result : WriteResult}
    (hrun : (sysWrite env writer fd text).run s = .ok (result, next)) :
    result = env.write s fd text ∧ next = s.log (.write writer fd text result) := by
  simp only [sysWrite, Prog.run_act, Except.ok.injEq, Prod.mk.injEq] at hrun
  rw [← hrun.1]
  exact ⟨rfl, hrun.2.symm⟩

/-! ## The queue at a position -/

theorem queue_split
    {pq : List Port} {c : ℕ} {p : Port} (hp : pq[c]? = some p) :
    ∃ front rest, pq = front ++ p :: rest ∧ front.length = c := by
  rw [List.getElem?_eq_some_iff] at hp
  rcases hp with ⟨hlt, hp⟩
  refine ⟨pq.take c, pq.drop (c + 1), ?_, ?_⟩
  · rw [← hp, List.cons_getElem_drop_succ, List.take_append_drop]
  · rw [List.length_take]
    omega

@[simp] theorem eraseIdx_append_cons (front rest : List α) (p : α) :
    (front ++ p :: rest).eraseIdx front.length = front ++ rest := by
  rw [List.eraseIdx_append_of_length_le le_rfl, Nat.sub_self, List.eraseIdx_zero,
    List.tail_cons]

@[simp] theorem modify_append_cons (front rest : List α) (p : α) (f : α → α) :
    (front ++ p :: rest).modify front.length f = front ++ f p :: rest := by
  rw [List.modify_eq_take_drop, List.take_left', List.drop_left'] <;> rfl

theorem allocate_cases
    {answer : Server → Option Int} {s next : Server} {fd : Int}
    (hrun : (allocate answer).run s = .ok (fd, next)) :
    (fd = -1 ∧ (∀ other, answer s = some other → ¬ s.fresh other) ∧ next = s) ∨
      (answer s = some fd ∧ s.fresh fd ∧
        next = { s with kernel := insert fd s.kernel }) := by
  simp only [allocate, Prog.run_act] at hrun
  cases hanswer : answer s with
  | none =>
      rw [hanswer] at hrun
      cases hrun
      refine Or.inl ⟨rfl, ?_, rfl⟩
      intro other hother
      cases hother
  | some answered =>
      rw [hanswer] at hrun
      by_cases hfresh : s.fresh answered
      · simp only [if_pos hfresh] at hrun
        cases hrun
        exact Or.inr ⟨rfl, hfresh, rfl⟩
      · simp only [if_neg hfresh] at hrun
        cases hrun
        refine Or.inl ⟨rfl, ?_, rfl⟩
        intro other hother
        cases hother
        exact hfresh

/-! ## The queue -/

theorem portEnqueue_run (env : Env) (p : Port) (s : Server) :
    (portEnqueue env p).run s =
      if env.malloc s then
        if 0 ≤ p.fd ∧ p.fd < fdSetSize then .ok (true, s.enqueued p)
        else .error (.fault .badDescriptor)
      else .ok (false, s) := by
  by_cases hmalloc : env.malloc s
  · by_cases hrange : 0 ≤ p.fd ∧ p.fd < fdSetSize
    · simp [portEnqueue, hmalloc, fdSet, hrange, Server.enqueued, Except.map]
    · simp [portEnqueue, hmalloc, fdSet, hrange, Except.map]
  · simp [portEnqueue, hmalloc]

theorem portEnqueue_cases
    {env : Env} {p : Port} {s next : Server} {queued : Bool}
    (hrun : (portEnqueue env p).run s = .ok (queued, next)) :
    (queued = false ∧ next = s) ∨
      (queued = true ∧ (0 ≤ p.fd ∧ p.fd < fdSetSize) ∧ next = s.enqueued p) := by
  rw [portEnqueue_run] at hrun
  split at hrun
  · split at hrun
    · simp only [Except.ok.injEq, Prod.mk.injEq] at hrun
      exact Or.inr ⟨hrun.1.symm, ‹_›, hrun.2.symm⟩
    · cases hrun
  · simp only [Except.ok.injEq, Prod.mk.injEq] at hrun
    exact Or.inl ⟨hrun.1.symm, hrun.2.symm⟩

theorem node_run {s : Server} {c : ℕ} {p : Port} (hp : s.pq[c]? = some p) :
    (node c).run s = .ok (p, s) := by
  simp [node, hp, Except.map]

theorem node_cases
    {s next : Server} {c : ℕ} {p : Port}
    (hrun : (node c).run s = .ok (p, next)) :
    s.pq[c]? = some p ∧ next = s := by
  cases hp : s.pq[c]? with
  | none => simp [node, hp, Except.map] at hrun
  | some q =>
      rw [node_run hp] at hrun
      cases hrun
      exact ⟨rfl, rfl⟩

theorem findNode_spec
    {s : Server} {c : ℕ} {p : Port} (hp : s.pq[c]? = some p) :
    ∃ found, findNode s c = some found ∧ s.pq[found]? = some p := by
  have hmem : p ∈ s.pq := List.mem_of_getElem? hp
  cases hfound : findNode s c with
  | none =>
      simp only [findNode, hp, List.findIdx?_eq_none_iff] at hfound
      simpa using hfound p hmem
  | some found =>
      rw [findNode, List.findIdx?_eq_some_iff_getElem] at hfound
      rcases hfound with ⟨hlt, heq, _⟩
      refine ⟨found, rfl, ?_⟩
      rw [List.getElem?_eq_getElem hlt]
      simpa [hp] using heq

theorem closePort_run_found
    {s : Server} {c found : ℕ} {p : Port} (hp : s.pq[c]? = some p)
    (hrange : 0 ≤ p.fd ∧ p.fd < fdSetSize) (hfull : p.fd ∈ s.ps.full)
    (hfound : findNode s c = some found) :
    (closePort c).run s = .ok ((), s.closed found p) := by
  have hne : s.pq ≠ [] := by
    intro hnil
    simp [hnil] at hp
  unfold findNode at hfound
  by_cases hmonitor : p.has flagMonitor
  · simp [closePort, node_run hp, fdIsSet, hrange, hfull, hmonitor, sysClose, hne,
      findNode, hfound, Server.closed, Except.map]
  · simp [closePort, node_run hp, fdIsSet, hrange, hfull, hmonitor, sysClose, hne,
      findNode, hfound, Server.closed, Except.map]

theorem closePort_cases
    {s next : Server} {c : ℕ} {u : Unit}
    (hrun : (closePort c).run s = .ok (u, next)) :
    ∃ p, s.pq[c]? = some p ∧
      ((p.fd ∉ s.ps.full ∧ next = s) ∨
        ∃ found, s.pq[found]? = some p ∧ p.fd ∈ s.ps.full ∧
          next = s.closed found p) := by
  cases hp : s.pq[c]? with
  | none => simp [closePort, node, hp, Except.map] at hrun
  | some p =>
      refine ⟨p, rfl, ?_⟩
      by_cases hrange : 0 ≤ p.fd ∧ p.fd < fdSetSize
      · by_cases hfull : p.fd ∈ s.ps.full
        · rcases findNode_spec hp with ⟨found, hfound, hq⟩
          rw [closePort_run_found hp hrange hfull hfound] at hrun
          cases hrun
          exact Or.inr ⟨found, hq, hfull, rfl⟩
        · simp [closePort, node_run hp, fdIsSet, hrange, hfull, Except.map] at hrun
          exact Or.inl ⟨hfull, hrun.symm⟩
      · simp [closePort, node_run hp, fdIsSet, hrange, Except.map] at hrun

/-! ## The monitor FIFO -/

theorem monitorOpen_run_open (env : Env) {s : Server} (hopen : s.monitorfd ≠ -1) :
    (monitorOpen env).run s = .ok ((), s) := by
  simp [monitorOpen, hopen]

theorem monitorLine_length (path : List Byte) :
    (monitorLine path).length = path.length + 9 := by
  have hhead : (bytes "monitor ").length = 8 := by decide
  have htail : (bytes "\n").length = 1 := by decide
  simp only [monitorLine, List.length_append, hhead, htail]
  omega

theorem monitorOpen_run_fresh
    {env : Env} {s : Server} {fd : Int} (hclosed : s.monitorfd = -1)
    (hpath : (env.tmpnam s).length < 255)
    (hopen : env.openMonitor { s with monitor := env.tmpnam s } = some fd)
    (hfresh : s.fresh fd) :
    (monitorOpen env).run s =
      if fd < fdSetSize then
        .ok ((), s.monitorOpened (env.tmpnam s) fd
          (env.write
            { s with
              monitor := env.tmpnam s
              monitorfd := fd
              kernel := insert fd s.kernel }
            s.controlfd (monitorLine (env.tmpnam s))))
      else .error (.fault .badDescriptor) := by
  have hne : fd ≠ -1 := by
    have hnonneg := hfresh.1
    omega
  have hline : (monitorLine (env.tmpnam s)).length < 1002 := by
    rw [monitorLine_length]
    omega
  have hfresh' : ({ s with monitor := env.tmpnam s } : Server).fresh fd := hfresh
  rw [hclosed] at hopen hfresh'
  by_cases hrange : fd < fdSetSize
  · simp [monitorOpen, hclosed, intoBuffer, hpath, Except.map, allocate, hopen, hfresh',
      hne, hline, sysWrite, fdSet, hfresh.1, hrange, Server.monitorOpened, Server.log]
  · simp [monitorOpen, hclosed, intoBuffer, hpath, Except.map, allocate, hopen, hfresh',
      hne, hline, sysWrite, fdSet, hrange]

theorem monitorOpen_run_failed
    {env : Env} {s : Server} (hclosed : s.monitorfd = -1)
    (hpath : (env.tmpnam s).length < 255)
    (hopen : ∀ fd, env.openMonitor { s with monitor := env.tmpnam s } = some fd →
      ¬ s.fresh fd) :
    (monitorOpen env).run s = .ok ((), s.monitorFailed (env.tmpnam s)) := by
  rw [hclosed] at hopen
  cases hanswer :
      env.openMonitor { s with monitor := env.tmpnam s, monitorfd := -1 } with
  | none =>
      simp [monitorOpen, hclosed, intoBuffer, hpath, Except.map, allocate, hanswer,
        Server.monitorFailed]
  | some fd =>
      have hstale :
          ¬ ({ s with monitor := env.tmpnam s, monitorfd := -1 } : Server).fresh fd :=
        hopen fd hanswer
      simp [monitorOpen, hclosed, intoBuffer, hpath, Except.map, allocate, hanswer,
        hstale, Server.monitorFailed]

theorem monitorOpen_cases
    {env : Env} {s next : Server} {u : Unit}
    (hrun : (monitorOpen env).run s = .ok (u, next)) :
    (s.monitorfd ≠ -1 ∧ next = s) ∨
      (s.monitorfd = -1 ∧ ∃ path,
        (next = s.monitorFailed path ∧
          ∀ fd, env.openMonitor { s with monitor := path } = some fd → ¬ s.fresh fd) ∨
        ∃ fd result, fd < fdSetSize ∧ s.fresh fd ∧
          next = s.monitorOpened path fd result) := by
  by_cases hopen : s.monitorfd = -1
  · right
    refine ⟨hopen, env.tmpnam s, ?_⟩
    by_cases hpath : (env.tmpnam s).length < 255
    · by_cases hanswer : ∃ fd,
          env.openMonitor { s with monitor := env.tmpnam s } = some fd ∧ s.fresh fd
      · rcases hanswer with ⟨fd, hfd, hfresh⟩
        rw [monitorOpen_run_fresh hopen hpath hfd hfresh] at hrun
        split at hrun
        · cases hrun
          exact Or.inr ⟨fd, _, ‹_›, hfresh, rfl⟩
        · cases hrun
      · have hstale : ∀ fd,
            env.openMonitor { s with monitor := env.tmpnam s } = some fd →
              ¬ s.fresh fd := by
          intro fd hfd hfresh
          exact hanswer ⟨fd, hfd, hfresh⟩
        rw [monitorOpen_run_failed hopen hpath hstale] at hrun
        cases hrun
        exact Or.inl ⟨rfl, hstale⟩
    · simp [monitorOpen, hopen, intoBuffer, hpath, Except.map] at hrun
  · left
    rw [monitorOpen_run_open env hopen] at hrun
    cases hrun
    exact ⟨hopen, rfl⟩

theorem monitorClose_run (s : Server) :
    monitorClose.run s =
      .ok ((), if s.monitorfd = -1 then s else s.monitorClosed) := by
  by_cases hopen : s.monitorfd = -1
  · simp [monitorClose, hopen]
  · simp [monitorClose, hopen, sysClose, Server.monitorClosed]

/-! ## Reauthentication -/

def Port.granted (aq : List AuthData) (p : Port) : Except Halt Bool :=
  authCheck aq p.userid p.sa.sinAddr

def Port.regraded (aq : List AuthData) (p : Port) : Port :=
  { p with flag :=
      p.flag &&& ~~~(flagRead ||| flagWrite) |||
        if p.granted aq matches .ok true then flagRead ||| flagWrite else flagRead }

@[simp] theorem Port.regraded_has_monitor (aq : List AuthData) (p : Port) :
    (p.regraded aq).has flagMonitor = p.has flagMonitor := by
  have hmask : ~~~(flagRead ||| flagWrite) &&& flagMonitor = flagMonitor := by decide
  have hread : flagRead &&& flagMonitor = 0 := by decide
  have hboth : (flagRead ||| flagWrite) &&& flagMonitor = 0 := by decide
  simp only [Port.has, Port.regraded, BitVec.and_or_distrib_right, BitVec.and_assoc, hmask]
  split <;> simp [hread, hboth]

theorem Port.regraded_has_write (aq : List AuthData) (p : Port) :
    (p.regraded aq).has flagWrite = true ↔ p.granted aq = .ok true := by
  have hmask : ~~~(flagRead ||| flagWrite) &&& flagWrite = 0 := by decide
  have hread : flagRead &&& flagWrite = 0 := by decide
  have hboth : (flagRead ||| flagWrite) &&& flagWrite = flagWrite := by decide
  have hwrite : ¬ flagWrite = 0#32 := by decide
  simp only [Port.has, Port.regraded, BitVec.and_or_distrib_right, BitVec.and_assoc, hmask]
  cases hgranted : p.granted aq with
  | error reason => simp [hread]
  | ok granted => cases granted <;> simp [hread, hboth, hwrite]

def reloadLine (granted : Bool) : List Byte :=
  if granted then fullAccessLine else readOnlyLine

theorem reauthenticate_run
    (env : Env) {s : Server} {front rest : List Port} {p : Port} (left : ℕ)
    (hpq : s.pq = front ++ p :: rest) {granted : Bool}
    (hgranted : p.granted s.aq = .ok granted) :
    ∃ result,
      (reauthenticate env (left + 1) front.length).run s =
        (reauthenticate env left (front.length + 1)).run
          { s with
            pq := front ++ p.regraded s.aq :: rest
            trace := s.trace ++
              [.write .reauthenticateUsers p.fd (reloadLine granted) result] } := by
  unfold Port.granted at hgranted
  let cleared : Port := { p with flag := p.flag &&& ~~~(flagRead ||| flagWrite) }
  refine ⟨env.write { s with pq := front ++ cleared :: rest } p.fd (reloadLine granted), ?_⟩
  cases granted with
  | true =>
      simp [reauthenticate, assignFlag, hpq, node, Except.map, sysWrite, hgranted,
        Server.log, reloadLine, Port.regraded, Port.granted, cleared]
  | false =>
      simp [reauthenticate, assignFlag, hpq, node, Except.map, sysWrite, hgranted,
        Server.log, reloadLine, Port.regraded, Port.granted, cleared]

/-- The writes of `reauthenticate_users` to the given ports. -/
def ReloadWrites (aq : List AuthData) : List Port → List Event → Prop :=
  List.Forall₂ fun p event => ∃ granted result, p.granted aq = .ok granted ∧
    event = .write .reauthenticateUsers p.fd (reloadLine granted) result

theorem reauthenticate_run_fault
    (env : Env) {s : Server} {front rest : List Port} {p : Port} (left : ℕ)
    (hpq : s.pq = front ++ p :: rest) {reason : Halt}
    (hgranted : p.granted s.aq = .error reason) :
    (reauthenticate env (left + 1) front.length).run s = .error reason := by
  unfold Port.granted at hgranted
  simp [reauthenticate, assignFlag, hpq, node, Except.map, hgranted]

theorem reauthenticate_cases
    {env : Env} {s next : Server} {front rest : List Port} {u : Unit}
    (hpq : s.pq = front ++ rest)
    (hrun : (reauthenticate env rest.length front.length).run s = .ok (u, next)) :
    ∃ events, ReloadWrites s.aq rest events ∧
      next = { s with
        pq := front ++ rest.map (Port.regraded s.aq)
        trace := s.trace ++ events } := by
  induction rest generalizing front s with
  | nil =>
      simp only [reauthenticate, List.length_nil, Prog.run_pure, Except.ok.injEq,
        Prod.mk.injEq] at hrun
      refine ⟨[], .nil, ?_⟩
      rw [← hrun.2]
      simp [← hpq]
  | cons p rest ih =>
      cases hgranted : p.granted s.aq with
      | error reason =>
          rw [List.length_cons, reauthenticate_run_fault env _ hpq hgranted] at hrun
          cases hrun
      | ok granted =>
          rcases reauthenticate_run env rest.length hpq hgranted with ⟨result, hstep⟩
          rw [List.length_cons, hstep] at hrun
          have hsplit : front ++ p.regraded s.aq :: rest =
              (front ++ [p.regraded s.aq]) ++ rest := by simp
          have hlength : front.length + 1 = (front ++ [p.regraded s.aq]).length := by
            simp
          rw [hlength] at hrun
          rcases ih hsplit hrun with ⟨events, hevents, hnext⟩
          refine ⟨_ :: events, .cons ⟨granted, result, hgranted, rfl⟩ hevents, ?_⟩
          rw [hnext]
          simp

theorem reauthenticate_completes
    (env : Env) {s : Server} {front rest : List Port} (hpq : s.pq = front ++ rest)
    (hchecked : ∀ p ∈ rest, ∃ granted, p.granted s.aq = .ok granted) :
    ∃ next, (reauthenticate env rest.length front.length).run s = .ok ((), next) := by
  induction rest generalizing front s with
  | nil => exact ⟨s, rfl⟩
  | cons p rest ih =>
      rcases hchecked p List.mem_cons_self with ⟨granted, hgranted⟩
      rcases reauthenticate_run env rest.length hpq hgranted with ⟨result, hstep⟩
      rw [List.length_cons, hstep]
      have hrest : ∀ q ∈ rest, ∃ granted, q.granted s.aq = .ok granted := by
        intro q hq
        exact hchecked q (List.mem_cons_of_mem p hq)
      have hsplit : front ++ p.regraded s.aq :: rest =
          (front ++ [p.regraded s.aq]) ++ rest := by simp
      have hlength : front.length + 1 = (front ++ [p.regraded s.aq]).length := by simp
      rw [hlength]
      exact ih hsplit hrest

theorem reauthenticateUsers_cases
    {env : Env} {s next : Server} {u : Unit}
    (hrun : (reauthenticateUsers env).run s = .ok (u, next)) :
    ∃ events, ReloadWrites s.aq s.pq events ∧
      next = { s with
        pq := s.pq.map (Port.regraded s.aq)
        trace := s.trace ++ events } := by
  unfold reauthenticateUsers at hrun
  rw [Prog.run_bind, run_look] at hrun
  have hempty : s.pq = [] ++ s.pq := rfl
  exact reauthenticate_cases hempty hrun

theorem reauthenticateUsers_completes
    (env : Env) {s : Server}
    (hchecked : ∀ p ∈ s.pq, ∃ granted, p.granted s.aq = .ok granted) :
    ∃ next, (reauthenticateUsers env).run s = .ok ((), next) := by
  unfold reauthenticateUsers
  rw [Prog.run_bind, run_look]
  have hempty : s.pq = [] ++ s.pq := rfl
  exact reauthenticate_completes env hempty hchecked

/-! ## The configuration file and the start -/

/-- The contents of the configuration file when it can be opened. -/
def confText (env : Env) (s : Server) : Option (List Byte) :=
  match env.fopen s with
  | some (fd, text) => if s.fresh fd then some text else none
  | none => none

/-- What the automatic variables `addr` of the parser hold. -/
def confGarbage (env : Env) (s : Server) : ℕ → BitVec 32 :=
  match env.fopen s with
  | some (fd, _) => env.addr { s with kernel := insert fd s.kernel }
  | none => env.addr s

theorem readConf_run (env : Env) (s : Server) :
    (readConf env).run s =
      match confText env s with
      | none => .ok ((), s)
      | some text =>
          (yyparse (confGarbage env s) 0 false (confTokens text) s.aq).map fun aq =>
            ((), { s with aq := aq }) := by
  unfold confGarbage
  cases hopen : env.fopen s with
  | none => simp [readConf, openConf, confText, hopen]
  | some file =>
      rcases file with ⟨fd, text⟩
      by_cases hfresh : s.fresh fd
      · have hkernel : (insert fd s.kernel).erase fd = s.kernel :=
          Finset.erase_insert hfresh.2
        simp only [readConf, openConf, confText, hopen, hfresh, parseConf, sysClose,
          Prog.run_bind, Prog.run_act, run_update, if_true]
        cases yyparse (env.addr { s with kernel := insert fd s.kernel }) 0 false
            (confTokens text) s.aq with
        | error reason => rfl
        | ok aq => simp [Except.map, hkernel]
      · simp [readConf, openConf, confText, hopen, hfresh]

theorem readConf_cases
    {env : Env} {s next : Server} {u : Unit}
    (hrun : (readConf env).run s = .ok (u, next)) :
    ∃ aq, next = { s with aq := aq } := by
  rw [readConf_run] at hrun
  split at hrun
  · cases hrun
    exact ⟨s.aq, rfl⟩
  · rename_i text _
    cases hparse : yyparse (confGarbage env s) 0 false (confTokens text) s.aq with
    | error reason => simp [hparse, Except.map] at hrun
    | ok aq =>
        simp only [hparse, Except.map, Except.ok.injEq, Prod.mk.injEq] at hrun
        exact ⟨aq, hrun.2.symm⟩

theorem rereadConf_cases
    {env : Env} {s next : Server} {u : Unit}
    (hrun : (rereadConf env).run s = .ok (u, next)) :
    ∃ aq events, ReloadWrites aq s.pq events ∧
      next = { s with
        aq := aq
        pq := s.pq.map (Port.regraded aq)
        trace := s.trace ++ events } := by
  unfold rereadConf at hrun
  rw [Prog.run_bind_eq_ok] at hrun
  rcases hrun with ⟨_, emptied, hempty, hrun⟩
  simp only [run_update, Except.ok.injEq, Prod.mk.injEq, true_and] at hempty
  rw [Prog.run_bind_eq_ok] at hrun
  rcases hrun with ⟨_, configured, hconf, hrun⟩
  rcases readConf_cases hconf with ⟨aq, hconfigured⟩
  rcases reauthenticateUsers_cases hrun with ⟨events, hevents, hnext⟩
  subst hempty hconfigured
  exact ⟨aq, events, hevents, hnext⟩

/-- The state in which the main loop is entered. -/
structure Started (s : Server) : Prop where
  pq : s.pq = []
  ps : s.ps = .empty
  fs : s.fs = .empty
  monitorcount : s.monitorcount = 0
  monitorfd : s.monitorfd = -1
  trace : s.trace = []
  sList : s.sList ≠ -1
  kernel : s.kernel = {s.sList} ∪ if s.controlfd = -1 then ∅ else {s.controlfd}
  controlfd : s.controlfd ≠ s.sList
  nonneg : ∀ fd ∈ s.kernel, 0 ≤ fd

theorem portDaemonInit_cases
    {env : Env} {s next : Server} {u : Unit}
    (hrun : (portDaemonInit env).run s = .ok (u, next)) :
    ∃ fd pd, s.fresh fd ∧ pd.full = {fd} ∧ pd.maxfd = fd ∧
      next = { s with sList := fd, pd := pd, kernel := insert fd s.kernel } := by
  unfold portDaemonInit at hrun
  rw [Prog.run_bind_eq_ok] at hrun
  rcases hrun with ⟨fd, mid, hallocate, hrun⟩
  by_cases hstop : fd = -1 ∨ env.bind { mid with sList := fd } = false
  · simp [hstop] at hrun
  · have hfd : fd ≠ -1 := by
      intro hfd
      exact hstop (Or.inl hfd)
    by_cases hrange : 0 ≤ fd ∧ fd < fdSetSize
    · simp [hstop, fdSet, hrange, Except.map] at hrun
      rcases allocate_cases hallocate with ⟨hfailed, _, _⟩ | ⟨_, hfresh, hmid⟩
      · exact absurd hfailed hfd
      · subst mid
        exact ⟨fd, _, hfresh, rfl, rfl, hrun.symm⟩
    · simp [hstop, fdSet, hrange, Except.map] at hrun

theorem start_cases
    {env : Env} {s : Server} {u : Unit}
    (hrun : (start env).run Server.blank = .ok (u, s)) : Started s := by
  unfold start at hrun
  rw [Prog.run_bind_eq_ok] at hrun
  rcases hrun with ⟨_, listening, hdaemon, hrun⟩
  rcases portDaemonInit_cases hdaemon with ⟨fd, pd, hfresh, _, _, hlistening⟩
  subst listening
  simp only [portServerInit, fifoServerInit] at hrun
  rw [Prog.run_bind_eq_ok] at hrun
  rcases hrun with ⟨_, served, hserved, hrun⟩
  simp only [run_update, Except.ok.injEq, Prod.mk.injEq] at hserved
  rw [Prog.run_bind_eq_ok] at hrun
  rcases hrun with ⟨_, configured, hinit, hrun⟩
  rw [Prog.run_bind_eq_ok] at hinit
  rcases hinit with ⟨controlfd, opened, hallocate, hinit⟩
  simp only [Prog.run_bind, run_update, Except.ok.injEq, Prod.mk.injEq] at hinit
  rcases readConf_cases hrun with ⟨aq, hs⟩
  rw [hs, ← hinit.2]
  have hfd : fd ≠ -1 := by
    have hnonneg := hfresh.1
    omega
  rcases allocate_cases hallocate with ⟨hfailed, _, hopened⟩ | ⟨_, hcontrol, hopened⟩
  · rw [hopened, ← hserved.2]
    subst controlfd
    exact
      { pq := rfl, ps := rfl, fs := rfl, monitorcount := rfl, monitorfd := rfl,
        trace := rfl, sList := hfd, kernel := rfl, controlfd := hfd.symm,
        nonneg := by simpa [Server.blank] using hfresh.1 }
  · rw [hopened]
    rw [← hserved.2] at hcontrol ⊢
    have hne : controlfd ≠ -1 := by
      have hnonneg := hcontrol.1
      omega
    have hother : controlfd ≠ fd := by
      intro heq
      exact hcontrol.2 (by simp [heq])
    exact
      { pq := rfl, ps := rfl, fs := rfl, monitorcount := rfl, monitorfd := rfl,
        trace := rfl, sList := hfd, controlfd := hother,
        kernel := by simp [Server.blank, hne, Finset.pair_comm],
        nonneg := by simpa [Server.blank] using ⟨hcontrol.1, hfresh.1⟩ }

/-- Only `port_daemon_init` changes the set of the listening socket. -/
theorem start_pd
    {env : Env} {s : Server} {u : Unit}
    (hrun : (start env).run Server.blank = .ok (u, s)) :
    s.pd.full = {s.sList} ∧ s.pd.maxfd = s.sList := by
  unfold start at hrun
  rw [Prog.run_bind_eq_ok] at hrun
  rcases hrun with ⟨_, listening, hdaemon, hrun⟩
  rcases portDaemonInit_cases hdaemon with ⟨fd, pd, _, hfull, hmaxfd, hlistening⟩
  simp only [portServerInit, fifoServerInit] at hrun
  rw [Prog.run_bind_eq_ok] at hrun
  rcases hrun with ⟨_, served, hserved, hrun⟩
  simp only [run_update, Except.ok.injEq, Prod.mk.injEq] at hserved
  rw [Prog.run_bind_eq_ok] at hrun
  rcases hrun with ⟨_, configured, hinit, hrun⟩
  rw [Prog.run_bind_eq_ok] at hinit
  rcases hinit with ⟨controlfd, opened, hallocate, hinit⟩
  simp only [Prog.run_bind, run_update, Except.ok.injEq, Prod.mk.injEq] at hinit
  rcases readConf_cases hrun with ⟨aq, hs⟩
  rcases allocate_cases hallocate with ⟨_, _, hopened⟩ | ⟨_, _, hopened⟩
  · rw [hs, ← hinit.2, hopened, ← hserved.2, hlistening]
    exact ⟨hfull, hmaxfd⟩
  · rw [hs, ← hinit.2, hopened, ← hserved.2, hlistening]
    exact ⟨hfull, hmaxfd⟩

/-! ## Selection -/

/-- The members a loop over the descriptors has passed when it reaches `bound`. -/
theorem filter_below_succ_of_mem {full : Finset Int} {bound : ℕ} (hmem : (bound : Int) ∈ full) :
    (full.filter fun x => 0 ≤ x ∧ x < ((bound + 1 : ℕ) : Int)) =
      insert (bound : Int) (full.filter fun x => 0 ≤ x ∧ x < (bound : Int)) := by
  ext x
  simp only [Finset.mem_filter, Finset.mem_insert]
  constructor
  · rintro ⟨hx, hrange⟩
    by_cases heq : x = bound
    · exact Or.inl heq
    · exact Or.inr ⟨hx, by omega⟩
  · rintro (heq | ⟨hx, hrange⟩)
    · rw [heq]
      exact ⟨hmem, by omega⟩
    · exact ⟨hx, by omega⟩

theorem filter_below_succ_of_notMem
    {full : Finset Int} {bound : ℕ} (hmem : (bound : Int) ∉ full) :
    (full.filter fun x => 0 ≤ x ∧ x < ((bound + 1 : ℕ) : Int)) =
      full.filter fun x => 0 ≤ x ∧ x < (bound : Int) := by
  ext x
  simp only [Finset.mem_filter]
  constructor
  · rintro ⟨hx, hrange⟩
    have hne : x ≠ bound := by
      intro heq
      rw [heq] at hx
      exact hmem hx
    exact ⟨hx, by omega⟩
  · rintro ⟨hx, hrange⟩
    exact ⟨hx, by omega⟩

/-- `t` differs from `s` in the outcome of `select` only. -/
structure Reselected (s t : Server) : Prop where
  server : t = { s with pd := t.pd, ps := t.ps, fs := t.fs, muxedfds := t.muxedfds }
  pd : t.pd = { s.pd with selcount := t.pd.selcount, sel := t.pd.sel }
  ps : t.ps = { s.ps with selcount := t.ps.selcount, sel := t.ps.sel }
  fs : t.fs = { s.fs with selcount := t.fs.selcount, sel := t.fs.sel }

theorem Reselected.trans {s t u : Server} (hst : Reselected s t) (htu : Reselected t u) :
    Reselected s u := by
  constructor
  · rw [htu.server, hst.server]
  · rw [htu.pd, hst.pd]
  · rw [htu.ps, hst.ps]
  · rw [htu.fs, hst.fs]

theorem reselected_mux (s : Server) : Reselected s (muxFds s) :=
  ⟨rfl, rfl, rfl, rfl⟩

theorem reselected_select (env : Env) (s : Server) : Reselected s (selectMuxed env s) := by
  unfold selectMuxed
  split <;> exact ⟨rfl, rfl, rfl, rfl⟩

theorem ThreadFds.select_frame (part : ThreadFds) (i : Int) :
    part.select i =
      { part with selcount := (part.select i).selcount, sel := (part.select i).sel } := by
  unfold ThreadFds.select
  split <;> rfl

theorem reselected_demux (count : Int) (s : Server) : Reselected s (demuxFds count s) := by
  unfold demuxFds
  refine List.foldlRecOn (motive := fun acc : Int × Server => Reselected s acc.2) _ _ ?_ ?_
  · exact ⟨rfl, rfl, rfl, rfl⟩
  · intro acc hacc i _
    dsimp only
    split
    · refine hacc.trans ⟨rfl, ?_, ?_, ?_⟩
      · exact ThreadFds.select_frame acc.2.pd i
      · exact ThreadFds.select_frame acc.2.ps i
      · exact ThreadFds.select_frame acc.2.fs i
    · exact hacc

theorem doSelect_cases
    {env : Env} {s next : Server} {u : Unit}
    (hrun : (doSelect env).run s = .ok (u, next)) : Reselected s next := by
  simp only [doSelect, Prog.run_bind, run_update, Except.ok.injEq, Prod.mk.injEq,
    true_and] at hrun
  rw [← hrun]
  exact (reselected_mux s).trans
    ((reselected_select env _).trans (reselected_demux _ _))

/-! ## An obliging world -/

def nextFd (s : Server) : Int := (s.kernel.sup Int.toNat : ℕ) + 1

theorem nextFd_fresh (s : Server) : s.fresh (nextFd s) := by
  refine ⟨by unfold nextFd; omega, ?_⟩
  intro hmem
  have hle : (nextFd s).toNat ≤ s.kernel.sup Int.toNat := Finset.le_sup hmem
  unfold nextFd at hle
  omega

/-- Every call succeeds, there is no configuration file, and nobody sends. -/
def Env.obliging : Env where
  malloc _ := true
  socket s := some (nextFd s)
  bind _ := true
  accept s := some (nextFd s, ⟨0x7f000001, 1024⟩)
  connect _ _ := true
  read _ _ := some []
  write _ _ text := .wrote text.length
  openControl s := some (nextFd s)
  openMonitor s := some (nextFd s)
  tmpnam _ := bytes "/tmp/fifo"
  fopen _ := none
  select _ := some ∅
  count _ := 0
  stack _ _ := nul
  addr _ _ := 0

/-- The state in which a run ends. -/
def finalState : Except Halt (α × Server) → Server
  | .ok (_, s) => s
  | .error _ => Server.blank

end DialdTop
