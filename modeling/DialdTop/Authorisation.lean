import DialdTop.Descriptors

/-!
# Who controls the link

`FLAG_WRITE` is set when a port is admitted and set anew when the configuration
is reloaded.  In between a port keeps its rights as long as it is queued.
-/

namespace DialdTop

open Program
open Relation (ReflTransGen)

/-! ## Rights of a port -/

/-- The port may write exactly if `auth_check` says so; without a user it may
not. -/
def Authorised (aq : List AuthData) (p : Port) : Prop :=
  match p.userid with
  | none => p.has flagWrite = false
  | some user =>
      p.has flagWrite = true ↔ authCheck aq (some user) p.sa.sinAddr = .ok true

def AuthInv (s : Server) : Prop :=
  ∀ p ∈ s.pq, Authorised s.aq p

/-- Two records of one connection with the same rights. -/
structure SameRights (p q : Port) : Prop where
  fd : p.fd = q.fd
  sa : p.sa = q.sa
  userid : p.userid = q.userid
  write : p.has flagWrite = q.has flagWrite

theorem SameRights.trans {p q r : Port} (hpq : SameRights p q) (hqr : SameRights q r) :
    SameRights p r :=
  ⟨hpq.fd.trans hqr.fd, hpq.sa.trans hqr.sa, hpq.userid.trans hqr.userid,
    hpq.write.trans hqr.write⟩

theorem SameRights.authorised
    {aq : List AuthData} {p q : Port} (hsame : SameRights p q)
    (hq : Authorised aq q) : Authorised aq p := by
  unfold Authorised at hq ⊢
  rw [hsame.userid, hsame.write, hsame.sa]
  exact hq

/-- Under the same configuration, no port has been added or regraded. -/
structure Descends (s t : Server) : Prop where
  aq : t.aq = s.aq
  controlfd : t.controlfd = s.controlfd
  ports : ∀ p ∈ t.pq, ∃ q ∈ s.pq, SameRights p q

theorem Descends.trans {s t u : Server} (hst : Descends s t) (htu : Descends t u) :
    Descends s u := by
  refine ⟨htu.aq.trans hst.aq, htu.controlfd.trans hst.controlfd, ?_⟩
  intro p hp
  rcases htu.ports p hp with ⟨q, hq, hpq⟩
  rcases hst.ports q hq with ⟨r, hr, hqr⟩
  exact ⟨r, hr, hpq.trans hqr⟩

theorem Descends.authInv {s t : Server} (hst : Descends s t) (hs : AuthInv s) :
    AuthInv t := by
  intro p hp
  rcases hst.ports p hp with ⟨q, hq, hpq⟩
  rw [hst.aq]
  exact hpq.authorised (hs q hq)

theorem descends_of_pq {s t : Server} (haq : t.aq = s.aq)
    (hcontrolfd : t.controlfd = s.controlfd) (hpq : t.pq = s.pq) : Descends s t := by
  refine ⟨haq, hcontrolfd, ?_⟩
  intro p hp
  rw [hpq] at hp
  exact ⟨p, hp, rfl, rfl, rfl, rfl⟩

theorem descends_log (s : Server) (event : Event) : Descends s (s.log event) :=
  descends_of_pq rfl rfl rfl

theorem descends_closed (s : Server) (c : ℕ) (p : Port) : Descends s (s.closed c p) := by
  refine ⟨rfl, rfl, ?_⟩
  intro q hq
  exact ⟨q, List.mem_of_mem_eraseIdx hq, rfl, rfl, rfl, rfl⟩

theorem descends_modify {s t : Server} {c : ℕ} {f : Port → Port}
    (haq : t.aq = s.aq) (hcontrolfd : t.controlfd = s.controlfd)
    (hpq : t.pq = s.pq.modify c f) (hf : ∀ p, SameRights (f p) p) :
    Descends s t := by
  refine ⟨haq, hcontrolfd, ?_⟩
  intro p hp
  rw [hpq] at hp
  rcases List.mem_iff_getElem?.mp hp with ⟨i, hi⟩
  rw [List.getElem?_modify] at hi
  cases hq : s.pq[i]? with
  | none => simp [hq] at hi
  | some q =>
      refine ⟨q, List.mem_of_getElem? hq, ?_⟩
      rw [hq] at hi
      simp only [Option.map_eq_map, Option.map_some, Option.some.injEq] at hi
      rw [← hi]
      split
      · exact hf q
      · exact ⟨rfl, rfl, rfl, rfl⟩

theorem sameRights_monitorOn (p : Port) : SameRights p.monitorOn p :=
  ⟨rfl, rfl, rfl, p.monitorOn_has_write⟩

theorem sameRights_monitorOff (p : Port) : SameRights p.monitorOff p :=
  ⟨rfl, rfl, rfl, p.monitorOff_has_write⟩

theorem closePort_descends
    {s next : Server} {c : ℕ} {u : Unit}
    (hrun : (closePort c).run s = .ok (u, next)) : Descends s next := by
  rcases closePort_cases hrun with ⟨p, _, ⟨_, hnext⟩ | ⟨found, _, _, hnext⟩⟩
  · rw [hnext]
    exact descends_of_pq rfl rfl rfl
  · rw [hnext]
    exact descends_closed s found p

theorem monitorOpen_descends
    {env : Env} {s next : Server} {u : Unit}
    (hrun : (monitorOpen env).run s = .ok (u, next)) : Descends s next := by
  rcases monitorOpen_cases hrun with ⟨_, hnext⟩ | ⟨_, path, hfailed | hopened⟩
  · rw [hnext]
    exact descends_of_pq rfl rfl rfl
  · rw [hfailed.1]
    exact descends_of_pq rfl rfl rfl
  · rcases hopened with ⟨fd, result, _, _, hnext⟩
    rw [hnext]
    exact descends_of_pq rfl rfl rfl

theorem Command.descends
    {env : Env} {line : List Byte} {c : ℕ} {p : Port} {s next : Server} {closed : Bool}
    (hcommand : Command env line c p s closed next) : Descends s next := by
  have hon : Descends s (s.monitorOn c) :=
    descends_modify rfl rfl rfl sameRights_monitorOn
  cases hcommand with
  | ignored => exact descends_of_pq rfl rfl rfl
  | monitorOff => exact descends_modify rfl rfl rfl sameRights_monitorOff
  | monitorOn => exact hon
  | monitorOpen _ _ hopen => exact hon.trans (monitorOpen_descends hopen)
  | close hclose => exact closePort_descends hclose
  | control => exact descends_log _ _
  | refuse => exact descends_log _ _

theorem ServeEffect.descends
    {env : Env} {s next : Server} (heffect : ServeEffect env s next) :
    Descends s next := by
  cases heffect with
  | hangup _ _ hclose =>
      exact (descends_log _ _).trans (closePort_descends hclose)
  | command _ hcommand => exact (descends_log _ _).trans hcommand.descends

theorem RelayEffect.descends {s next : Server} (heffect : RelayEffect s next) :
    Descends s next := by
  cases heffect with
  | drained => exact descends_log _ _
  | relayed => exact descends_log _ _
  | close hclose => exact closePort_descends hclose
  | monitorClose => exact descends_of_pq rfl rfl rfl

/-! ## Grading -/

/-- Without a user, `auth_check` grants nothing and may crash. -/
theorem authCheck_none
    {aq : List AuthData} {ip : BitVec 32} {granted : Bool}
    (hcheck : authCheck aq none ip = .ok granted) : granted = false := by
  unfold authCheck at hcheck
  cases hline : intoBuffer 256 (authCheckLine none ip) with
  | error reason =>
      rw [hline] at hcheck
      cases hcheck
  | ok line =>
      rw [hline] at hcheck
      cases aq with
      | nil =>
          simp only [authSearch, bind, Except.bind] at hcheck
          split at hcheck
          · cases hcheck
          · cases hcheck
            rfl
      | cons entry aq =>
          simp only [authSearch, bind, Except.bind] at hcheck
          cases hcheck

theorem authorised_of_grade
    {aq : List AuthData} {p : Port} {granted : Bool} (hgranted : p.granted aq = .ok granted)
    (hwrite : p.has flagWrite = true ↔ granted = true) : Authorised aq p := by
  unfold Authorised
  unfold Port.granted at hgranted
  split
  · rename_i huserid
    rw [huserid] at hgranted
    rw [authCheck_none hgranted] at hwrite
    simpa using hwrite
  · rename_i user huserid
    rw [huserid] at hgranted
    rw [hwrite, hgranted]
    simp

theorem Graded.authorised
    {aq : List AuthData} {p : Port} (hgraded : Graded aq p) : Authorised aq p := by
  have hread : flagRead &&& flagWrite = 0 := by decide
  rcases hgraded with ⟨huserid, hflag⟩ | ⟨granted, _, hgranted, hflag⟩
  · simp [Authorised, huserid, Port.has, hflag, hread]
  · refine authorised_of_grade hgranted ?_
    have hboth : (flagRead ||| flagWrite) &&& flagWrite = flagWrite := by decide
    have hwrite : ¬ flagWrite = 0#32 := by decide
    cases granted
    · simp [Port.has, hflag, hread]
    · simp [Port.has, hflag, hboth, hwrite]

theorem regraded_authorised
    {aq : List AuthData} {p : Port} {granted : Bool} (hgranted : p.granted aq = .ok granted) :
    Authorised aq (p.regraded aq) := by
  have hsame : (p.regraded aq).granted aq = .ok granted := hgranted
  refine authorised_of_grade hsame ?_
  rw [Port.regraded_has_write, hgranted]
  simp

theorem ReloadWrites.granted
    {aq : List AuthData} {ports : List Port} {events : List Event}
    (hwrites : ReloadWrites aq ports events) {p : Port} (hp : p ∈ ports) :
    ∃ granted, p.granted aq = .ok granted := by
  induction hwrites with
  | nil => cases hp
  | cons hfirst _ ih =>
      rcases List.mem_cons.mp hp with hp | hp
      · rcases hfirst with ⟨granted, _, hgranted, _⟩
        rw [hp]
        exact ⟨granted, hgranted⟩
      · exact ih hp

theorem AuthInv.enqueued {s : Server} (hinv : AuthInv s) {p : Port}
    (hp : Authorised s.aq p) : AuthInv (s.enqueued p) := by
  intro q hq
  rcases List.mem_cons.mp hq with hq | hq
  · rw [hq]
    exact hp
  · exact hinv q hq

theorem authInv_reread
    {env : Env} {s next : Server} {u : Unit}
    (hrun : (rereadConf env).run s = .ok (u, next)) : AuthInv next := by
  rcases rereadConf_cases hrun with ⟨aq, events, hwrites, hnext⟩
  rw [hnext]
  intro p hp
  rcases List.mem_map.mp hp with ⟨q, hq, hqp⟩
  rcases hwrites.granted hq with ⟨granted, hgranted⟩
  rw [← hqp]
  exact regraded_authorised hgranted

theorem AuthInv.admitted
    {s next : Server} {p : Port} (hinv : AuthInv s) (hp : Authorised s.aq p)
    (hadmitted : Admitted s p next) : AuthInv next := by
  cases hadmitted with
  | queued => exact hinv.enqueued hp
  | refused => exact hinv

theorem AuthInv.serverStep
    {daemon : Env → Server → Prop} {relayed : Server → Server → Prop} {s next : Server}
    (hinv : AuthInv s) (hstep : ServerStep daemon relayed s next) : AuthInv next := by
  cases hstep with
  | doSelect hrun =>
      have hselected := (doSelect_cases hrun).server
      rw [hselected]
      exact hinv
  | portDaemon haccepts _ hrun =>
      rcases portDaemon_cases haccepts hrun with
        ⟨p, events, kernel, _, hgraded, _, _, _, hadmitted⟩
      have hprepared : AuthInv
          { s with sIn := p, kernel := kernel, trace := s.trace ++ events } := hinv
      exact hprepared.admitted hgraded.authorised hadmitted
  | portServer ready count hrun =>
      have hselected : AuthInv
          { s with ps := { s.ps with sel := ready, selcount := count } } := hinv
      exact invariant_of_effects (fun _ _ heffect ha => heffect.descends.authInv ha)
        (portServer_effects hrun) hselected
  | fifoServer hrun =>
      exact invariant_of_effects (fun _ _ heffect ha => heffect.descends.authInv ha)
        (fifoServer_effects hrun) hinv
  | rereadConf hrun => exact authInv_reread hrun

/-! ## Writes to the control FIFO -/

/-- Why `text` may be written to the control FIFO after the events `before`: it
is the request of `monitor_open`, or the chunk just read from a queued port to
which the configuration gives control. -/
def ControlReason
    (s : Server) (before : List Event) (writer : Writer) (text : List Byte) : Prop :=
  (writer = .monitorOpen ∧ ∃ path, text = monitorLine path) ∨
    ∃ p user earlier, writer = .parseIncoming p ∧ (∃ q ∈ s.pq, SameRights p q) ∧
      p.userid = some user ∧ authCheck s.aq (some user) p.sa.sinAddr = .ok true ∧
        before = earlier ++ [.read p.fd (some text)]

def Supervised (s : Server) (events : List Event) : Prop :=
  ∀ before writer text result after,
    events = before ++ .write writer s.controlfd text result :: after →
      ControlReason s before writer text

theorem ControlReason.prepend
    {s : Server} {before : List Event} {writer : Writer} {text : List Byte}
    (hreason : ControlReason s before writer text) (earlier : List Event) :
    ControlReason s (earlier ++ before) writer text := by
  rcases hreason with hopen | ⟨p, user, middle, hwriter, hport, huserid, hcheck, hbefore⟩
  · exact Or.inl hopen
  · refine Or.inr ⟨p, user, earlier ++ middle, hwriter, hport, huserid, hcheck, ?_⟩
    rw [hbefore, List.append_assoc]

theorem supervised_nil (s : Server) : Supervised s [] := by
  intro before writer text result after hevents
  simp at hevents

theorem Supervised.append
    {s : Server} {first second : List Event} (hfirst : Supervised s first)
    (hsecond : Supervised s second) : Supervised s (first ++ second) := by
  intro before writer text result after hevents
  rw [List.append_eq_append_iff] at hevents
  rcases hevents with ⟨middle, hbefore, hrest⟩ | ⟨middle, hhead, hrest⟩
  · rw [hbefore]
    exact (hsecond middle writer text result after hrest).prepend first
  · cases middle with
    | nil =>
        rw [List.append_nil] at hhead
        have hreason := hsecond [] writer text result after hrest.symm
        rw [← hhead]
        simpa using hreason.prepend first
    | cons event middle =>
        rw [List.cons_append, List.cons.injEq] at hrest
        rw [← hrest.1] at hhead
        exact hfirst before writer text result middle hhead

theorem supervised_singleton
    {s : Server} {event : Event}
    (hother : ∀ writer text result, event ≠ .write writer s.controlfd text result) :
    Supervised s [event] := by
  intro before writer text result after hevents
  cases before with
  | nil =>
      simp only [List.nil_append, List.cons.injEq] at hevents
      exact absurd hevents.1 (hother writer text result)
  | cons _ before => simp at hevents

/-- A read followed by a write for which there is a reason. -/
theorem supervised_read_write
    {s : Server} {fd : Int} {chunk : Option (List Byte)} {writer : Writer} {target : Int}
    {text : List Byte} {result : WriteResult}
    (hreason : target = s.controlfd → ControlReason s [.read fd chunk] writer text) :
    Supervised s [.read fd chunk, .write writer target text result] := by
  intro before writer' text' result' after hevents
  cases before with
  | nil => simp at hevents
  | cons first before =>
      cases before with
      | nil =>
          simp only [List.cons_append, List.nil_append, List.cons.injEq,
            Event.write.injEq] at hevents
          rcases hevents with ⟨hread, ⟨hwriter, htarget, htext, _⟩, _⟩
          rw [← hread, ← hwriter, ← htext]
          exact hreason htarget
      | cons _ before => simp at hevents

theorem Supervised.of_descends
    {s t : Server} {events : List Event} (hst : Descends s t)
    (hevents : Supervised t events) : Supervised s events := by
  intro before writer text result after heq
  rw [← hst.controlfd] at heq
  rcases hevents before writer text result after heq with
    hopen | ⟨p, user, earlier, hwriter, ⟨q, hq, hpq⟩, huserid, hcheck, hbefore⟩
  · exact Or.inl hopen
  · rcases hst.ports q hq with ⟨r, hr, hqr⟩
    rw [hst.aq] at hcheck
    exact Or.inr ⟨p, user, earlier, hwriter, ⟨r, hr, hpq.trans hqr⟩, huserid, hcheck,
      hbefore⟩

/-- The events between two states, all of them supervised. -/
def Traced (s t : Server) : Prop :=
  ∃ events, t.trace = s.trace ++ events ∧ Supervised s events

theorem traced_of_trace {s t : Server} (htrace : t.trace = s.trace) : Traced s t :=
  ⟨[], by rw [htrace, List.append_nil], supervised_nil s⟩

theorem Traced.trans
    {s t u : Server} (hdescends : Descends s t) (hst : Traced s t) (htu : Traced t u) :
    Traced s u := by
  rcases hst with ⟨first, hfirst, hsupervised⟩
  rcases htu with ⟨second, hsecond, hsupervised'⟩
  refine ⟨first ++ second, ?_, hsupervised.append (hsupervised'.of_descends hdescends)⟩
  rw [hsecond, hfirst, List.append_assoc]

/-- No port is on the descriptor of the control FIFO. -/
def PortsApart (s : Server) : Prop :=
  ∀ p ∈ s.pq, p.fd ≠ s.controlfd

theorem Descends.portsApart {s t : Server} (hst : Descends s t) (hs : PortsApart s) :
    PortsApart t := by
  intro p hp
  rcases hst.ports p hp with ⟨q, hq, hpq⟩
  rw [hpq.fd, hst.controlfd]
  exact hs q hq

theorem DescriptorInv.portsApart {s : Server} (hinv : DescriptorInv s) :
    PortsApart s := by
  intro p hp hcontrol
  have hport : p.fd ∈ s.pq.map Port.fd := List.mem_map_of_mem hp
  have hheld : p.fd ∈ s.held := by
    simp only [Server.held, List.mem_cons, List.mem_append]
    exact Or.inr (Or.inr hport)
  have hopen : s.controlfd ≠ -1 := by
    have hnonneg := hinv.nonneg p.fd (hinv.isOpen p.fd hheld)
    omega
  have hdistinct :=
    (List.nodup_append.mp (List.nodup_cons.mp hinv.distinct).2).2.2
  have hmem : s.controlfd ∈ heldIn s.controlfd ++ heldIn s.monitorfd := by
    simp [heldIn, hopen]
  exact hdistinct s.controlfd hmem p.fd hport hcontrol.symm

theorem closePort_trace
    {s next : Server} {c : ℕ} {u : Unit}
    (hrun : (closePort c).run s = .ok (u, next)) : next.trace = s.trace := by
  rcases closePort_cases hrun with ⟨p, _, ⟨_, hnext⟩ | ⟨found, _, _, hnext⟩⟩
  · rw [hnext]
  · rw [hnext]
    rfl

theorem monitorOpen_trace
    {env : Env} {s next : Server} {u : Unit}
    (hrun : (monitorOpen env).run s = .ok (u, next)) :
    next.trace = s.trace ∨ ∃ path result,
      next.trace = s.trace ++
        [.write .monitorOpen s.controlfd (monitorLine path) result] := by
  rcases monitorOpen_cases hrun with ⟨_, hnext⟩ | ⟨_, path, hfailed | hopened⟩
  · rw [hnext]
    exact Or.inl rfl
  · rw [hfailed.1]
    exact Or.inl rfl
  · rcases hopened with ⟨fd, result, _, _, hnext⟩
    rw [hnext]
    exact Or.inr ⟨path, result, rfl⟩

theorem ServeEffect.traced
    {env : Env} {s next : Server} (heffect : ServeEffect env s next)
    (hauth : AuthInv s) (happart : PortsApart s) : Traced s next := by
  cases heffect with
  | hangup chunk hp hclose =>
      rename_i c p
      have hread : Supervised s [.read p.fd chunk] := supervised_singleton (by simp)
      exact ⟨_, closePort_trace hclose, hread⟩
  | command hp hcommand =>
      rename_i c p line closed
      have hmem : p ∈ s.pq := List.mem_of_getElem? hp
      have hread : Supervised s [.read p.fd (some line)] := supervised_singleton (by simp)
      cases hcommand with
      | ignored => exact ⟨_, rfl, hread⟩
      | monitorOff => exact ⟨_, rfl, hread⟩
      | monitorOn => exact ⟨_, rfl, hread⟩
      | monitorOpen _ _ hopen =>
          rcases monitorOpen_trace hopen with htrace | ⟨path, result, htrace⟩
          · exact ⟨_, htrace, hread⟩
          · refine ⟨[.read p.fd (some line),
              .write .monitorOpen s.controlfd (monitorLine path) result], ?_,
              supervised_read_write fun _ => Or.inl ⟨rfl, path, rfl⟩⟩
            rw [htrace]
            simp [Server.monitorOn, Server.log]
      | close hclose => exact ⟨_, closePort_trace hclose, hread⟩
      | control result hwrite =>
          refine ⟨[.read p.fd (some line),
            .write (.parseIncoming p) s.controlfd line result], ?_,
            supervised_read_write fun _ => Or.inr ?_⟩
          · simp [Server.log]
          · have hp := hauth p hmem
            unfold Authorised at hp
            split at hp
            · rw [hp] at hwrite
              cases hwrite
            · rename_i user huserid
              exact ⟨p, user, [], rfl, ⟨p, hmem, rfl, rfl, rfl, rfl⟩, huserid,
                hp.mp hwrite, rfl⟩
      | refuse result =>
          refine ⟨[.read p.fd (some line),
            .write (.parseIncoming p) p.fd (noControlLine line) result], ?_,
            supervised_read_write fun htarget => absurd htarget (happart p hmem)⟩
          simp [Server.log]

theorem RelayEffect.traced
    {s next : Server} (heffect : RelayEffect s next) (happart : PortsApart s) :
    Traced s next := by
  cases heffect with
  | drained chunk => exact ⟨[.read _ chunk], rfl, supervised_singleton (by simp)⟩
  | relayed chunk result hp hmonitor =>
      rename_i c p
      refine ⟨[.write .fifoServer p.fd chunk result], rfl, supervised_singleton ?_⟩
      intro writer text result' heq
      have hapart := happart p (List.mem_of_getElem? hp)
      simp only [Event.write.injEq] at heq
      exact hapart heq.2.1
  | close hclose => exact traced_of_trace (closePort_trace hclose)
  | monitorClose => exact traced_of_trace rfl

/-! ## The whole server -/

/-- A walk whose effects are traced is traced, since the ports it leaves behind
keep their rights. -/
theorem traced_of_effects
    {effect : Server → Server → Prop} {s next : Server}
    (hdescends : ∀ a b, effect a b → Descends a b)
    (htraced : ∀ a b, effect a b → AuthInv a → PortsApart a → Traced a b)
    (heffects : ReflTransGen effect s next) (hauth : AuthInv s) (happart : PortsApart s) :
    Traced s next := by
  have hboth : Descends s next ∧ Traced s next := by
    induction heffects with
    | refl => exact ⟨descends_of_pq rfl rfl rfl, traced_of_trace rfl⟩
    | tail _ heffect ih =>
        have htail := htraced _ _ heffect (ih.1.authInv hauth) (ih.1.portsApart happart)
        exact ⟨ih.1.trans (hdescends _ _ heffect), ih.2.trans ih.1 htail⟩
  exact hboth.2

theorem ReloadWrites.supervised
    {s : Server} {aq : List AuthData} {ports : List Port} {events : List Event}
    (hwrites : ReloadWrites aq ports events)
    (happart : ∀ p ∈ ports, p.fd ≠ s.controlfd) : Supervised s events := by
  induction hwrites with
  | nil => exact supervised_nil s
  | @cons p event ports events hfirst _ ih =>
      have hhead : Supervised s [event] := by
        apply supervised_singleton
        intro writer text result heq
        rcases hfirst with ⟨_, _, _, hevent⟩
        rw [hevent, Event.write.injEq] at heq
        exact happart p List.mem_cons_self heq.2.1
      have hrest : ∀ q ∈ ports, q.fd ≠ s.controlfd := by
        intro q hq
        exact happart q (List.mem_cons_of_mem p hq)
      exact hhead.append (ih hrest)

theorem supervised_of_fresh
    {s : Server} {events : List Event} (hinv : DescriptorInv s)
    (hfresh : ∀ writer fd text result, .write writer fd text result ∈ events →
      writer = .portDaemon ∧ s.fresh fd) : Supervised s events := by
  intro before writer text result after hevents
  have hmem : .write writer s.controlfd text result ∈ events := by
    rw [hevents]
    simp
  rcases (hfresh writer s.controlfd text result hmem).2 with ⟨hnonneg, hclosed⟩
  have hheld : s.controlfd ∈ s.held := by
    have hopen : s.controlfd ≠ -1 := by omega
    simp [Server.held, heldIn, hopen]
  exact absurd (hinv.isOpen s.controlfd hheld) hclosed

theorem ServerStep.traced
    {daemon : Env → Server → Prop} {relayed : Server → Server → Prop} {s next : Server}
    (hstep : ServerStep daemon relayed s next) (hauth : AuthInv s)
    (hinv : DescriptorInv s) : Traced s next := by
  cases hstep with
  | doSelect hrun =>
      have hselected := (doSelect_cases hrun).server
      rw [hselected]
      exact traced_of_trace rfl
  | portDaemon haccepts _ hrun =>
      rcases portDaemon_cases haccepts hrun with
        ⟨p, events, kernel, _, _, hfresh, _, _, hadmitted⟩
      have hevents := supervised_of_fresh hinv hfresh
      cases hadmitted with
      | queued => exact ⟨events, rfl, hevents⟩
      | refused => exact ⟨events, rfl, hevents⟩
  | portServer ready count hrun =>
      have hselected : Traced
          { s with ps := { s.ps with sel := ready, selcount := count } } next :=
        traced_of_effects (fun _ _ heffect => heffect.descends)
          (fun _ _ heffect => heffect.traced) (portServer_effects hrun) hauth
          hinv.portsApart
      exact hselected
  | fifoServer hrun =>
      exact traced_of_effects (fun _ _ heffect => heffect.descends)
        (fun _ _ heffect _ => heffect.traced) (fifoServer_effects hrun) hauth
        hinv.portsApart
  | rereadConf hrun =>
      rcases rereadConf_cases hrun with ⟨aq, events, hwrites, hnext⟩
      rw [hnext]
      exact ⟨events, rfl, hwrites.supervised hinv.portsApart⟩

theorem control_of_reachable
    {env : Env} {s next : Server}
    (hstart : (start env).run Server.blank = .ok ((), s))
    (hsteps : ReflTransGen (ServerStep (fun _ _ => True) fun _ _ => True) s next) :
    AuthInv next ∧
      ∀ last, ServerStep (fun _ _ => True) (fun _ _ => True) next last →
        ∃ events, last.trace = next.trace ++ events ∧ Supervised next events := by
  have hstep : ∀ a b, ServerStep (fun _ _ => True) (fun _ _ => True) a b →
      AuthInv a ∧ DescriptorInv a → AuthInv b ∧ DescriptorInv b := by
    intro a b hab ha
    exact ⟨ha.1.serverStep hab, ha.2.serverStep hab⟩
  have hstarted := start_cases hstart
  have hfirst : AuthInv s ∧ DescriptorInv s := by
    refine ⟨?_, hstarted.balanced.toDescriptorInv⟩
    intro p hp
    rw [hstarted.pq] at hp
    cases hp
  have hinv := invariant_of_effects hstep hsteps hfirst
  exact ⟨hinv.1, fun last hlast => hlast.traced hinv.1 hinv.2⟩

/-- One user has full access, and identd answers with that user. -/
def Env.trusting : Env :=
  { Env.obliging with
    fopen := fun s => some (nextFd s, bytes "alice 127.0.0.1 255.255.255.255\n")
    read := fun _ _ => some (bytes "1024, 1313 : USERID : UNIX : alice\r\n") }

theorem control_of_reachable_trusting :
    let admitted := finalState ((portDaemon .trusting).run
      (finalState ((start .trusting).run .blank)))
    admitted.pq.map (·.has flagWrite) = [true] ∧ AuthInv admitted := by
  let started := finalState ((start .trusting).run .blank)
  have hstart : (start .trusting).run .blank = .ok ((), started) := by decide +kernel
  have haccepts : Accepts .trusting started :=
    ⟨nextFd started, _, rfl, nextFd_fresh started⟩
  have hadmitted : (portDaemon .trusting).run started =
      .ok ((), finalState ((portDaemon .trusting).run started)) := by
    decide +kernel
  refine ⟨by decide +kernel, ?_⟩
  exact (control_of_reachable hstart
    (.single (.portDaemon haccepts trivial hadmitted))).1

end DialdTop
