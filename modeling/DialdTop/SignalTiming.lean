import DialdTop.Authorisation

/-!
# Reload at any moment

The handler of SIGHUP may run between any two statements of the main loop.  It
regrades the ports on the queue, but not the one which `port_daemon` is about to
enqueue: between the answer of `auth_check` and the moment when the port is
linked into the queue, a reload must not change that answer.
-/

namespace DialdTop

open Program
open Relation (ReflTransGen)

/-- The handler, with any configuration for which it runs to completion. -/
def Reloads (_ : Place) (s next : Server) : Prop :=
  ∃ env, (rereadConf env).run s = .ok ((), next)

/-- The reload does not change the answer of `auth_check` for a port which is
being admitted. -/
def Timely (place : Place) (s next : Server) : Prop :=
  Reloads place s next ∧
    (place = .admitting → ∀ user, s.sIn.userid = some user →
      authCheck next.aq (some user) s.sIn.sa.sinAddr =
        authCheck s.aq (some user) s.sIn.sa.sinAddr)

/-- From one return to `do_select` to the next, with signals delivered as `H`
says. -/
inductive Round (H : Place → Server → Server → Prop) : Server → Server → Prop
  | loop {env : Env} {fuel : ℕ} {s next : Server} :
      Prog.Exec H (loopBody env fuel) s () next → Round H s next
  | signal {s next : Server} : H .elsewhere s next → Round H s next

theorem Reloads.authInv {place : Place} {s next : Server}
    (h : Reloads place s next) : AuthInv next := by
  obtain ⟨env, hrun⟩ := h
  exact authInv_reread hrun

/-- The handler leaves the port alone which is being admitted. -/
theorem Reloads.sIn {place : Place} {s next : Server} (h : Reloads place s next) :
    next.sIn = s.sIn := by
  obtain ⟨env, hrun⟩ := h
  obtain ⟨aq, events, -, rfl⟩ := rereadConf_cases hrun
  rfl

/-! ## Statements which respect the rights -/

section Statements

theorem descends_of_subset {s t : Server} (haq : t.aq = s.aq)
    (hcontrolfd : t.controlfd = s.controlfd) (hpq : t.pq ⊆ s.pq) : Descends s t :=
  ⟨haq, hcontrolfd, fun p hp => ⟨p, hpq hp, rfl, rfl, rfl, rfl⟩⟩

theorem keeps_act
    {place : Place} {f : Server → Except Halt (α × Server)}
    (hf : ∀ s a next, f s = .ok (a, next) → Descends s next) :
    (Prog.act place f).Keeps AuthInv := by
  apply Prog.keeps_act
  intro s a next hs hact
  exact (hf s a next hact).authInv hs

theorem keeps_bind_iff
    {p : Srv α} {place : Place} {f : Server → Except Halt (α × Server)}
    (hp : p = Prog.act place f) (hkeeps : p.Keeps AuthInv) (g : α → Srv β) :
    (p >>= g).Keeps AuthInv ↔ ∀ a, (g a).Keeps AuthInv := by
  subst hp
  rw [Prog.keeps_act_bind_iff]
  exact and_iff_right hkeeps

@[simp] theorem keeps_look (f : Server → α) : (look f).Keeps AuthInv := by
  apply keeps_act
  intro s a next h
  cases h
  exact descends_of_pq rfl rfl rfl

@[simp] theorem keeps_look_bind (f : Server → α) (g : α → Srv β) :
    (look f >>= g).Keeps AuthInv ↔ ∀ a, (g a).Keeps AuthInv :=
  keeps_bind_iff rfl (keeps_look f) g

@[simp] theorem keeps_test_bind
    (c : Server → Prop) [DecidablePred c] (g : Bool → Srv β) :
    (test c >>= g).Keeps AuthInv ↔ ∀ a, (g a).Keeps AuthInv :=
  keeps_bind_iff rfl (keeps_look _) g

@[simp] theorem keeps_attempt (f : Server → Except Halt α) :
    (attempt f).Keeps AuthInv := by
  apply keeps_act
  intro s a next h
  cases hvalue : f s with
  | error reason =>
      rw [hvalue] at h
      cases h
  | ok value =>
      rw [hvalue] at h
      cases h
      exact descends_of_pq rfl rfl rfl

@[simp] theorem keeps_attempt_bind (f : Server → Except Halt α) (g : α → Srv β) :
    (attempt f >>= g).Keeps AuthInv ↔ ∀ a, (g a).Keeps AuthInv :=
  keeps_bind_iff rfl (keeps_attempt f) g

@[simp] theorem keeps_node_bind (c : ℕ) (g : Port → Srv β) :
    (node c >>= g).Keeps AuthInv ↔ ∀ p, (g p).Keeps AuthInv :=
  keeps_attempt_bind _ g

@[simp] theorem keeps_stop (reason : Halt) : (stop reason : Srv α).Keeps AuthInv := by
  apply keeps_act
  intro s a next h
  cases h

@[simp] theorem keeps_update
    {f : Server → Server} (haq : ∀ s, (f s).aq = s.aq)
    (hcontrolfd : ∀ s, (f s).controlfd = s.controlfd) (hpq : ∀ s, (f s).pq ⊆ s.pq) :
    (update f).Keeps AuthInv := by
  apply keeps_act
  intro s a next h
  cases h
  exact descends_of_subset (haq s) (hcontrolfd s) (hpq s)

@[simp] theorem keeps_update_bind
    {f : Server → Server} (haq : ∀ s, (f s).aq = s.aq)
    (hcontrolfd : ∀ s, (f s).controlfd = s.controlfd) (hpq : ∀ s, (f s).pq ⊆ s.pq)
    (g : Unit → Srv β) :
    (update f >>= g).Keeps AuthInv ↔ (g ()).Keeps AuthInv := by
  rw [update, keeps_bind_iff rfl (keeps_update haq hcontrolfd hpq) g]
  exact ⟨fun h => h (), fun h _ => h⟩

@[simp] theorem keeps_advance_bind (curr : Option ℕ) (g : Option ℕ → Srv β) :
    (advance curr >>= g).Keeps AuthInv ↔ ∀ a, (g a).Keeps AuthInv :=
  keeps_look_bind _ g

@[simp] theorem keeps_sysRead (env : Env) (fd : Int) (count : ℕ) :
    (sysRead env fd count).Keeps AuthInv := by
  apply keeps_act
  intro s a next h
  cases h
  exact descends_log _ _

@[simp] theorem keeps_sysRead_bind
    (env : Env) (fd : Int) (count : ℕ) (g : Option (List Byte) → Srv β) :
    (sysRead env fd count >>= g).Keeps AuthInv ↔ ∀ a, (g a).Keeps AuthInv :=
  keeps_bind_iff rfl (keeps_sysRead env fd count) g

@[simp] theorem keeps_sysWrite
    (env : Env) (writer : Writer) (fd : Int) (text : List Byte) :
    (sysWrite env writer fd text).Keeps AuthInv := by
  apply keeps_act
  intro s a next h
  cases h
  exact descends_log _ _

@[simp] theorem keeps_sysWrite_bind
    (env : Env) (writer : Writer) (fd : Int) (text : List Byte) (g : WriteResult → Srv β) :
    (sysWrite env writer fd text >>= g).Keeps AuthInv ↔ ∀ a, (g a).Keeps AuthInv :=
  keeps_bind_iff rfl (keeps_sysWrite env writer fd text) g

@[simp] theorem keeps_sysClose (fd : Int) : (sysClose fd).Keeps AuthInv := by
  simp [sysClose]

@[simp] theorem keeps_sysClose_bind (fd : Int) (g : Unit → Srv β) :
    (sysClose fd >>= g).Keeps AuthInv ↔ (g ()).Keeps AuthInv := by
  simp [sysClose]

@[simp] theorem keeps_allocate (answer : Server → Option Int) :
    (allocate answer).Keeps AuthInv := by
  apply keeps_act
  intro s a next h
  have hrun : (allocate answer).run s = .ok (a, next) := by
    rw [allocate, Prog.run_act]
    exact h
  rcases allocate_cases hrun with ⟨-, -, rfl⟩ | ⟨-, -, rfl⟩
  · exact descends_of_pq rfl rfl rfl
  · exact descends_of_pq rfl rfl rfl

@[simp] theorem keeps_allocate_bind (answer : Server → Option Int) (g : Int → Srv β) :
    (allocate answer >>= g).Keeps AuthInv ↔ ∀ a, (g a).Keeps AuthInv :=
  keeps_bind_iff rfl (keeps_allocate answer) g

@[simp] theorem keeps_assignFlag_bind
    {f : BitVec 32 → BitVec 32} (hf : ∀ flag, f flag &&& flagWrite = flag &&& flagWrite)
    (c : ℕ) (g : Unit → Srv β) :
    (assignFlag c f >>= g).Keeps AuthInv ↔ (g ()).Keeps AuthInv := by
  have hkeeps : (assignFlag c f).Keeps AuthInv := by
    apply keeps_act
    intro s a next h
    cases h
    refine descends_modify rfl rfl rfl ?_
    intro p
    refine ⟨rfl, rfl, rfl, ?_⟩
    simp [Port.has, hf]
  exact (keeps_bind_iff rfl hkeeps g).trans ⟨fun h => h (), fun h _ => h⟩

theorem keeps_closePort (c : ℕ) : (closePort c).Keeps AuthInv := by
  simp [closePort, Option.forall, List.eraseIdx_subset]

theorem keeps_monitorOpen (env : Env) : (monitorOpen env).Keeps AuthInv := by
  simp [monitorOpen]

theorem keeps_monitorClose : monitorClose.Keeps AuthInv := by
  simp [monitorClose]

theorem keeps_parseIncoming (env : Env) (line : List Byte) (c : ℕ) :
    (parseIncoming env line c).Keeps AuthInv := by
  have hoff : ∀ flag : BitVec 32,
      flag &&& ~~~flagMonitor &&& flagWrite = flag &&& flagWrite := by
    intro flag
    have hmask : ~~~flagMonitor &&& flagWrite = flagWrite := by decide
    rw [BitVec.and_assoc, hmask]
  have hon : ∀ flag : BitVec 32,
      (flag ||| flagMonitor) &&& flagWrite = flag &&& flagWrite := by
    intro flag
    have hmask : flagMonitor &&& flagWrite = 0 := by decide
    rw [BitVec.and_or_distrib_right, hmask]
    simp
  have hopen : (monitorOpen env >>= fun _ => pure false : Srv Bool).Keeps AuthInv :=
    (keeps_monitorOpen env).bind fun _ => trivial
  have hclose : (closePort c >>= fun _ => pure true : Srv Bool).Keeps AuthInv :=
    (keeps_closePort c).bind fun _ => trivial
  simp [parseIncoming, hoff, hon, hopen, hclose]

theorem keeps_serve
    (env : Env) (count : Int) (fuel : ℕ) (curr prev : Option ℕ) (i : Int) :
    (serve env count fuel curr prev i).Keeps AuthInv := by
  fun_induction serve env count fuel curr prev i with
  | case1 => simp
  | case2 => simp
  | case3 fuel curr prev i _ hserved hhangup hskipped =>
      have hclose : (closePort curr >>= fun _ => advance prev >>= fun next =>
          serve env count fuel next prev (i + 1)).Keeps AuthInv :=
        (keeps_closePort curr).bind fun _ => (keeps_advance_bind _ _).mpr hhangup
      simp only [keeps_node_bind, keeps_attempt_bind, Prog.keeps_ite_iff,
        keeps_sysRead_bind, keeps_advance_bind]
      intro p ready
      refine ⟨fun _ chunk => ?_, fun _ => hskipped⟩
      rcases chunk with _ | _ | ⟨b, bs⟩
      · exact hclose
      · exact hclose
      · refine (keeps_parseIncoming env (b :: bs) curr).bind ?_
        intro closed
        exact (keeps_advance_bind _ _).mpr (hserved closed)
  | case4 => simp

theorem keeps_portServer (env : Env) (fuel : ℕ) : (portServer env fuel).Keeps AuthInv := by
  simp [portServer, keeps_serve]

theorem keeps_relay
    (env : Env) (chunk : List Byte) (fuel : ℕ) (curr : Option ℕ) (i : Int) :
    (relay env chunk fuel curr i).Keeps AuthInv := by
  fun_induction relay env chunk fuel curr i with
  | case1 => simp
  | case2 => simp
  | case3 fuel curr i hnext hstay =>
      have hclose : (closePort curr >>= fun _ => advance none >>= fun next =>
          relay env chunk fuel next (i + 1)).Keeps AuthInv :=
        (keeps_closePort curr).bind fun _ => (keeps_advance_bind _ _).mpr hnext
      simp [hclose, hnext, hstay]

theorem keeps_relayAll (env : Env) (walk fuel : ℕ) :
    (relayAll env walk fuel).Keeps AuthInv := by
  induction fuel with
  | zero => simp [relayAll]
  | succ fuel ih =>
      simp only [relayAll, keeps_look_bind, keeps_sysRead_bind]
      intro monitorfd chunk
      rcases chunk with _ | _ | ⟨b, bs⟩
      · trivial
      · trivial
      · have hchunk : (relayChunk env (b :: bs) walk).Keeps AuthInv := by
          simp [relayChunk, keeps_relay]
        refine hchunk.bind ?_
        intro _
        simp [ih]

theorem keeps_fifoServer (env : Env) (fuel : ℕ) : (fifoServer env fuel).Keeps AuthInv := by
  simp [fifoServer, keeps_monitorClose, keeps_relayAll]

theorem keeps_reselect {f : Server → Server} (hf : ∀ s, Reselected s (f s)) :
    (update f).Keeps AuthInv := by
  apply keeps_act
  intro s a next h
  cases h
  have hserver := (hf s).server
  rw [hserver]
  exact descends_of_pq rfl rfl rfl

theorem keeps_doSelect (env : Env) : (doSelect env).Keeps AuthInv := by
  refine (keeps_reselect reselected_mux).bind fun _ => ?_
  refine (keeps_reselect (reselected_select env)).bind fun _ => ?_
  exact keeps_reselect fun s => reselected_demux (env.count s) s

end Statements

/-! ## Admission with signals -/

/-- The port which is being admitted carries the rights it should have. -/
def Entitled (s : Server) : Prop :=
  AuthInv s ∧ Authorised s.aq s.sIn

/-- `auth_check` has given its answer for the port which is being admitted. -/
def Checked (userid : List Byte) (granted : Bool) (s : Server) : Prop :=
  AuthInv s ∧ s.sIn.userid = some userid ∧
    authCheck s.aq (some userid) s.sIn.sa.sinAddr = .ok granted

theorem stable_authInv (place : Place) : Prog.Stable Timely place AuthInv :=
  fun _ _ h _ => h.1.authInv

/-- What is said of `s_in` alone survives a signal. -/
theorem stable_sIn (place : Place) (P : Port → Prop) :
    Prog.Stable Timely place fun s => AuthInv s ∧ P s.sIn := by
  intro s next h hs
  refine ⟨h.1.authInv, ?_⟩
  rw [h.1.sIn]
  exact hs.2

theorem stable_checked (userid : List Byte) (granted : Bool) :
    Prog.Stable Timely .admitting (Checked userid granted) := by
  intro s next h hs
  obtain ⟨-, huserid, hcheck⟩ := hs
  refine ⟨h.1.authInv, ?_, ?_⟩
  · rw [h.1.sIn]
    exact huserid
  · rw [h.1.sIn, h.2 rfl userid huserid]
    exact hcheck

theorem stable_entitled : Prog.Stable Timely .admitting Entitled := by
  intro s next h hs
  refine ⟨h.1.authInv, ?_⟩
  have hauthorised := hs.2
  rw [h.1.sIn]
  unfold Authorised at hauthorised ⊢
  split
  next huserid => simpa [huserid] using hauthorised
  next user huserid =>
    rw [h.2 rfl user huserid]
    simpa [huserid] using hauthorised

theorem triple_keeps {p : Srv α} (hp : p.Keeps AuthInv) :
    Prog.Triple Timely AuthInv p fun _ => AuthInv :=
  hp.triple stable_authInv

section Admitting

variable {P : Server → Prop} (hstable : Prog.Stable Timely .admitting P)

include hstable

theorem triple_look (f : Server → α) :
    Prog.Triple Timely P ((look f).within .admitting) fun a s => P s ∧ f s = a := by
  rw [look, Prog.within_act]
  refine Prog.triple_act hstable ?_
  intro s a next hs hact
  cases hact
  exact ⟨hs, rfl⟩

theorem triple_update {Q : Server → Prop} {f : Server → Server}
    (hf : ∀ s, P s → Q (f s)) :
    Prog.Triple Timely P ((update f).within .admitting) fun _ => Q := by
  rw [update, Prog.within_act]
  refine Prog.triple_act hstable ?_
  intro s a next hs hact
  cases hact
  exact hf s hs

theorem triple_attempt (f : Server → Except Halt α) :
    Prog.Triple Timely P ((attempt f).within .admitting) fun _ => P := by
  rw [attempt, Prog.within_act]
  refine Prog.triple_act hstable ?_
  intro s a next hs hact
  cases hvalue : f s with
  | error reason =>
      rw [hvalue] at hact
      cases hact
  | ok value =>
      rw [hvalue] at hact
      cases hact
      exact hs

end Admitting

/-- From the point where the port is linked into the queue, the handler takes
care of it. -/
theorem triple_portEnqueue (env : Env) (p : Port) :
    Prog.Triple Timely (fun s => Entitled s ∧ s.sIn = p) (portEnqueue env p)
      fun _ => AuthInv := by
  have hstable : Prog.Stable Timely .admitting fun s => Entitled s ∧ s.sIn = p := by
    intro s next h hs
    exact ⟨stable_entitled s next h hs.1, h.1.sIn.trans hs.2⟩
  have hpush : Prog.Triple Timely (fun s => Entitled s ∧ s.sIn = p)
      ((update fun s => { s with pq := p :: s.pq }).within .admitting)
        fun _ => AuthInv := by
    apply triple_update hstable
    intro s hs
    obtain ⟨⟨hinv, hauthorised⟩, rfl⟩ := hs
    exact hinv.enqueued hauthorised
  unfold portEnqueue
  refine (triple_look hstable env.malloc).bind fun memory => ?_
  apply Prog.Triple.ite
  · intro _
    apply Prog.triple_pure
    intro s hs
    exact hs.1.1.1
  · intro _
    refine (hpush.weaken fun s hs => hs.1).bind fun _ => ?_
    apply triple_keeps
    simp

theorem triple_enqueueIncoming (env : Env) :
    Prog.Triple Timely Entitled (enqueueIncoming env) fun _ => AuthInv := by
  unfold enqueueIncoming
  refine (triple_look stable_entitled fun s => s.sIn).bind fun p => ?_
  refine (triple_portEnqueue env p).bind fun queued => ?_
  apply triple_keeps
  simp

theorem triple_greet (env : Env) (userid : List Byte) (granted : Bool) :
    Prog.Triple Timely (Checked userid granted)
      ((greet env userid granted).within .admitting) fun _ => Entitled := by
  have hstable := stable_checked userid granted
  let Graduated (s : Server) : Prop := Checked userid granted s ∧
    s.sIn.flag = if granted then flagRead ||| flagWrite else flagRead
  have hgraduated : Prog.Stable Timely .admitting Graduated := by
    intro s next h hs
    refine ⟨hstable s next h hs.1, ?_⟩
    rw [h.1.sIn]
    exact hs.2
  have hentitled : ∀ s, Graduated s → Entitled s := by
    intro s hs
    obtain ⟨⟨hinv, huserid, hcheck⟩, hflag⟩ := hs
    have hgraded : Graded s.aq s.sIn := by
      refine .inr ⟨granted, ?_, ?_, hflag⟩
      · rw [huserid]
        rfl
      · rw [Port.granted, huserid]
        exact hcheck
    exact ⟨hinv, hgraded.authorised⟩
  have hwrite : ∀ fd user, Prog.Triple Timely Graduated
      ((sysWrite env .portDaemon fd user).within .admitting) fun _ => Graduated := by
    intro fd user
    rw [sysWrite, Prog.within_act]
    refine Prog.triple_act hgraduated ?_
    intro s a next hs hact
    cases hact
    exact hs
  unfold greet
  simp only [Prog.within_bind]
  refine (triple_attempt hstable _).bind fun user => ?_
  have hassign : ∀ s, Checked userid granted s → Graduated { s with
      sIn := { s.sIn with flag := if granted then flagRead ||| flagWrite else flagRead } } :=
    fun s hs => ⟨hs, rfl⟩
  refine (triple_update hstable hassign).bind fun _ => ?_
  refine (triple_look hgraduated fun s => s.sIn.fd).bind fun fd => ?_
  refine ((hwrite fd user).weaken fun s hs => hs.1).bind fun _ => ?_
  exact Prog.triple_pure hentitled

theorem triple_askIdent (env : Env) (sIdent : Int) :
    Prog.Triple Timely AuthInv (askIdent env sIdent)
      fun userid s => AuthInv s ∧ s.sIn.userid = some userid := by
  unfold askIdent
  refine (triple_keeps (keeps_attempt _)).bind fun request => ?_
  refine (triple_keeps (keeps_sysWrite _ _ _ _)).bind fun _ => ?_
  refine (triple_keeps (keeps_sysRead _ _ _)).bind fun reply => ?_
  refine (triple_keeps (keeps_sysClose _)).bind fun _ => ?_
  refine (triple_keeps (keeps_attempt _)).bind fun line => ?_
  have hassign : Prog.Triple Timely AuthInv
      (update fun s => { s with sIn := { s.sIn with userid := some (reapUserid line) } })
        fun _ s => AuthInv s ∧ s.sIn.userid = some (reapUserid line) := by
    refine Prog.triple_act (stable_authInv _) ?_
    intro s a next hs hact
    cases hact
    exact ⟨hs, rfl⟩
  refine hassign.bind fun _ => ?_
  exact Prog.triple_pure fun s hs => hs

theorem triple_admitWithoutIdent (env : Env) :
    Prog.Triple Timely AuthInv (admitWithoutIdent env) fun _ => AuthInv := by
  have hflag : Prog.Triple Timely AuthInv
      (update fun s => { s with sIn := { s.sIn with flag := flagRead } })
        fun _ s => AuthInv s ∧ s.sIn.flag = flagRead := by
    refine Prog.triple_act (stable_authInv _) ?_
    intro s a next hs hact
    cases hact
    exact ⟨hs, rfl⟩
  have huserid : Prog.Triple Timely (fun s => AuthInv s ∧ s.sIn.flag = flagRead)
      (update fun s => { s with sIn := { s.sIn with userid := none } })
        fun _ => Entitled := by
    refine Prog.triple_act (stable_sIn _ fun p => p.flag = flagRead) ?_
    intro s a next hs hact
    cases hact
    have hgraded : Graded s.aq { s.sIn with userid := none } := .inl ⟨rfl, hs.2⟩
    exact ⟨hs.1, hgraded.authorised⟩
  unfold admitWithoutIdent
  refine (triple_keeps (keeps_look _)).bind fun fd => ?_
  refine (triple_keeps (keeps_sysWrite _ _ _ _)).bind fun _ => ?_
  refine hflag.bind fun _ => ?_
  refine huserid.bind fun _ => ?_
  exact triple_enqueueIncoming env

theorem triple_portDaemon (env : Env) :
    Prog.Triple Timely AuthInv (portDaemon env) fun _ => AuthInv := by
  have haccept : (acceptPort env).Keeps AuthInv := by
    apply keeps_act
    intro s a next h
    split at h
    next =>
      split at h
      all_goals
        cases h
        exact descends_of_pq rfl rfl rfl
    next =>
      cases h
      exact descends_of_pq rfl rfl rfl
  have hconnect : ∀ fd addr, (sysConnect env fd addr).Keeps AuthInv := by
    intro fd addr
    apply keeps_act
    intro s a next h
    cases h
    exact descends_log _ _
  have hcheck : ∀ userid, Prog.Triple Timely
      (fun s => AuthInv s ∧ s.sIn.userid = some userid)
      (attempt fun s => authCheck s.aq (some userid) s.sIn.sa.sinAddr)
        fun granted => Checked userid granted := by
    intro userid
    refine Prog.triple_act (stable_sIn _ fun p => p.userid = some userid) ?_
    intro s granted next hs hact
    simp only at hact
    cases hanswer : authCheck s.aq (some userid) s.sIn.sa.sinAddr with
    | error reason =>
        rw [hanswer] at hact
        cases hact
    | ok answer =>
        rw [hanswer] at hact
        cases hact
        exact ⟨hs.1, hs.2, hanswer⟩
  unfold portDaemon
  refine (triple_keeps haccept).bind fun _ => ?_
  refine (triple_keeps (keeps_look _)).bind fun addr => ?_
  refine (triple_keeps (keeps_allocate _)).bind fun sIdent => ?_
  refine (triple_keeps (hconnect sIdent addr)).bind fun connected => ?_
  apply Prog.Triple.ite
  · intro _
    refine (triple_askIdent env sIdent).bind fun userid => ?_
    refine (hcheck userid).bind fun granted => ?_
    refine (triple_greet env userid granted).bind fun _ => ?_
    exact triple_enqueueIncoming env
  · intro _
    exact triple_admitWithoutIdent env

theorem triple_loopBody (env : Env) (fuel : ℕ) :
    Prog.Triple Timely AuthInv (loopBody env fuel) fun _ => AuthInv := by
  have hrelay : (test (fun s => s.fs.selcount ≠ 0) >>= fun ready =>
      if ready = true then fifoServer env fuel else pure ()).Keeps AuthInv := by
    simp [keeps_fifoServer]
  have hserve : (test (fun s => s.ps.selcount ≠ 0) >>= fun ready =>
      if ready = true then portServer env fuel >>= fun _ =>
        test (fun s => s.fs.selcount ≠ 0) >>= fun ready =>
          if ready = true then fifoServer env fuel else pure ()
      else test (fun s => s.fs.selcount ≠ 0) >>= fun ready =>
        if ready = true then fifoServer env fuel else pure ()).Keeps AuthInv := by
    rw [keeps_test_bind]
    intro ready
    rw [Prog.keeps_ite_iff]
    exact ⟨fun _ => (keeps_portServer env fuel).bind fun _ => hrelay, fun _ => hrelay⟩
  unfold loopBody
  refine (triple_keeps (keeps_doSelect env)).bind fun _ => ?_
  refine (triple_keeps (keeps_look _)).bind fun accepts => ?_
  apply Prog.Triple.ite
  · intro _
    exact (triple_portDaemon env).bind fun _ => triple_keeps hserve
  · intro _
    exact triple_keeps hserve

/-- In every run in which no reload changes the answer of `auth_check` for a
port that is being admitted, the rights of the queued ports are those of the
configuration in force whenever control is back at `do_select`. -/
theorem authorised_of_timely_signals
    {env : Env} {s next : Server}
    (hstart : (start env).run Server.blank = .ok ((), s))
    (hrounds : ReflTransGen (Round Timely) s next) :
    ∀ p ∈ next.pq, ∀ user, p.userid = some user →
      (p.has flagWrite = true ↔
        authCheck next.aq (some user) p.sa.sinAddr = .ok true) := by
  have hinv : AuthInv next := by
    induction hrounds with
    | refl =>
        have hempty := (start_cases hstart).pq
        intro p hp
        rw [hempty] at hp
        cases hp
    | tail _ hround ih =>
        cases hround with
        | loop hexec => exact triple_loopBody _ _ _ _ _ hexec ih
        | signal hsignal => exact hsignal.1.authInv
  intro p hp user huserid
  have hauthorised := hinv p hp
  unfold Authorised at hauthorised
  rw [huserid] at hauthorised
  exact hauthorised

/-- The user with full access is waiting to be accepted. -/
def Env.visited : Env :=
  { Env.trusting with select := fun s => some {s.sList} }

/-- Without a configuration file nobody has access any more. -/
theorem authorised_of_timely_signals_visited :
    let started := finalState ((start .visited).run .blank)
    let admitted := finalState ((loopBody .visited 1).run started)
    let reloaded := finalState ((rereadConf .obliging).run admitted)
    reloaded.pq.map (·.userid) = [some (bytes "alice")] ∧
      ∀ p ∈ reloaded.pq, ∀ user, p.userid = some user →
        (p.has flagWrite = true ↔
          authCheck reloaded.aq (some user) p.sa.sinAddr = .ok true) := by
  let started := finalState ((start .visited).run .blank)
  let admitted := finalState ((loopBody .visited 1).run started)
  let reloaded := finalState ((rereadConf .obliging).run admitted)
  have hstart : (start .visited).run .blank = .ok ((), started) := by decide +kernel
  have hadmit : (loopBody .visited 1).run started = .ok ((), admitted) := by
    decide +kernel
  have hreload : (rereadConf .obliging).run admitted = .ok ((), reloaded) := by
    decide +kernel
  have hloop : Round Timely started admitted := .loop (Prog.exec_of_run hadmit)
  have hsignal : Round Timely admitted reloaded := by
    refine .signal ⟨⟨.obliging, hreload⟩, ?_⟩
    intro hplace
    cases hplace
  refine ⟨by decide +kernel, ?_⟩
  exact authorised_of_timely_signals hstart (.tail (.single hloop) hsignal)

/-- Somebody else has full access after the reload. -/
def Env.succeeded : Env :=
  { Env.obliging with
    fopen := fun s => some (nextFd s, bytes "bob 127.0.0.1 255.255.255.255\n") }

/-- The file lists somebody else and the signal is delivered after `auth_check` has
granted full access: the user keeps it. -/
theorem exists_stale_right :
    ∃ env s next, (start env).run Server.blank = .ok ((), s) ∧
      Round Reloads s next ∧
        ∃ p ∈ next.pq, ∃ user, p.userid = some user ∧
          next.aq.map AuthData.userid = [bytes "bob"] ∧
            ¬ (p.has flagWrite = true ↔
              authCheck next.aq (some user) p.sa.sinAddr = .ok true) := by
  let started := finalState ((start .visited).run .blank)
  let disturbed := (loopBody .visited 1).interrupted (rereadConf .succeeded).run 15 started
  have hstart : (start .visited).run .blank = .ok ((), started) := by decide +kernel
  have hrun : (loopBody .visited 1).interrupted (rereadConf .succeeded).run 15 started =
      .ok ((), finalState disturbed) := by
    decide +kernel
  have hround : Round Reloads started (finalState disturbed) := by
    refine .loop (Prog.exec_of_interrupted ?_ hrun)
    intro place s next h
    exact ⟨.succeeded, h⟩
  refine ⟨.visited, started, finalState disturbed, hstart, hround, ?_⟩
  refine ⟨⟨3, ⟨0x7f000001, 1024⟩, flagRead ||| flagWrite, some (bytes "alice")⟩,
    by decide +kernel, bytes "alice", rfl, by decide +kernel, ?_⟩
  decide +kernel

end DialdTop
