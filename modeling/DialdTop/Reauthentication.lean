import DialdTop.Reload
import DialdTop.ServerInvariant

/-!
# Regrading the queued ports

`reauthenticate_users` passes the user of every queued port to `auth_check`.  A
port without ident has none, which `auth_check` survives only when the list is
empty.
-/

namespace DialdTop

open Program
open Relation (ReflTransGen)

/-- A message of `reauthenticate_users` to the port. -/
def IsReloadMessage (p : Port) (event : Event) : Prop :=
  ∃ text result, event = .write .reauthenticateUsers p.fd text result ∧
    (text = fullAccessLine ∨ text = readOnlyLine)

/-- The same connection with new rights. -/
structure RegradedSafely (p q : Port) : Prop where
  connection : q.connection = p.connection
  monitor : q.has flagMonitor = p.has flagMonitor
  withoutIdent : p.userid = none → q.has flagRead = true ∧ q.has flagWrite = false

/-- The call completes, with one message to every queued port. -/
def ReauthenticatesSafely (env : Env) (s : Server) : Prop :=
  ∃ next messages, (reauthenticateUsers env).run s = .ok ((), next) ∧
    next.trace = s.trace ++ messages ∧ List.Forall₂ IsReloadMessage s.pq messages ∧
      List.Forall₂ RegradedSafely s.pq next.pq

theorem Port.regraded_has_read (aq : List AuthData) (p : Port) :
    (p.regraded aq).has flagRead = true := by
  have hmask : ~~~(flagRead ||| flagWrite) &&& flagRead = 0 := by decide
  have hread : flagRead &&& flagRead = flagRead := by decide
  have hboth : (flagRead ||| flagWrite) &&& flagRead = flagRead := by decide
  have hne : ¬ flagRead = 0#32 := by decide
  simp only [Port.has, Port.regraded, BitVec.and_or_distrib_right, BitVec.and_assoc, hmask]
  cases hgranted : p.granted aq with
  | error reason => simp [hread, hne]
  | ok granted => cases granted <;> simp [hread, hboth, hne]

/-- Without a user, the check returns only under an empty list, and grants
nothing. -/
theorem Port.granted_of_checkFits
    {aq : List AuthData} {p : Port} (hfits : CheckFits aq p.userid p.sa.sinAddr)
    (huserid : p.userid = none) : p.granted aq = .ok false := by
  rcases authCheck_completes_iff.mpr hfits with ⟨granted, hcheck⟩
  rw [huserid] at hfits hcheck
  have haq : aq = [] := hfits
  subst aq
  have hsearch : authSearch [] none p.sa.sinAddr = .ok false := rfl
  rw [authCheck_of_search hsearch] at hcheck
  rw [Port.granted, huserid, authCheck_of_search hsearch]
  cases hline : intoBuffer 256 (authCheckLine none p.sa.sinAddr ++ verdict false) with
  | error reason =>
      rw [hline] at hcheck
      cases hcheck
  | ok line => rfl

theorem regradedSafely_regraded
    {aq : List AuthData} {p : Port} (hfits : CheckFits aq p.userid p.sa.sinAddr) :
    RegradedSafely p (p.regraded aq) where
  connection := rfl
  monitor := p.regraded_has_monitor aq
  withoutIdent := by
    intro huserid
    refine ⟨p.regraded_has_read aq, ?_⟩
    rw [← Bool.not_eq_true, p.regraded_has_write, Port.granted_of_checkFits hfits huserid]
    intro heq
    cases heq

theorem ReloadWrites.isReloadMessage
    {aq : List AuthData} {ports : List Port} {events : List Event}
    (h : ReloadWrites aq ports events) : List.Forall₂ IsReloadMessage ports events := by
  refine h.imp ?_
  intro p event hwrite
  rcases hwrite with ⟨granted, result, _, hevent⟩
  refine ⟨reloadLine granted, result, hevent, ?_⟩
  cases granted with
  | true => exact Or.inl rfl
  | false => exact Or.inr rfl

/-- Under any list, the queued ports are regraded safely if and only if every
check returns. -/
theorem reauthenticatesSafely_iff (env : Env) (s : Server) (aq : List AuthData) :
    ReauthenticatesSafely env { s with aq := aq } ↔
      ∀ p ∈ s.pq, CheckFits aq p.userid p.sa.sinAddr := by
  constructor
  · intro h p hp
    rcases h with ⟨next, _, hrun, _⟩
    rcases reauthenticateUsers_cases hrun with ⟨events, hwrites, _⟩
    rcases forall₂_exists_right hwrites hp with ⟨_, _, granted, _, hgranted, _⟩
    exact authCheck_completes_iff.mp ⟨granted, hgranted⟩
  · intro hfits
    have hcompletes : ∃ next, (reauthenticateUsers env).run { s with aq := aq } =
        .ok ((), next) := by
      apply reauthenticateUsers_completes
      intro p hp
      exact authCheck_completes_iff.mpr (hfits p hp)
    rcases hcompletes with ⟨next, hrun⟩
    rcases reauthenticateUsers_cases hrun with ⟨events, hwrites, hnext⟩
    refine ⟨next, events, hrun, ?_, hwrites.isReloadMessage, ?_⟩
    · rw [hnext]
    · rw [hnext, List.forall₂_map_right_iff, List.forall₂_same]
      intro p hp
      exact regradedSafely_regraded (hfits p hp)

/-- The configuration lists `alice`, and identd does not answer. -/
def Env.unidentified : Env :=
  { Env.trusting with connect := fun _ _ => false }

theorem exists_null_userid :
    ∃ s p, Reachable s ∧ s.pq = [p] ∧ p.userid = none ∧ s.aq ≠ [] ∧
      (reauthenticateUsers .unidentified).run s = .error (.fault .nullString) := by
  let started := finalState ((start .unidentified).run .blank)
  let admitted := finalState ((portDaemon .unidentified).run started)
  have hstart : (start .unidentified).run .blank = .ok ((), started) := by decide +kernel
  have haccepts : Accepts .unidentified started :=
    ⟨nextFd started, _, rfl, nextFd_fresh started⟩
  have hadmitted : (portDaemon .unidentified).run started = .ok ((), admitted) := by
    decide +kernel
  refine ⟨admitted, admitted.sIn, ⟨.unidentified, started, hstart,
    .single (.portDaemon haccepts trivial hadmitted)⟩, ?_, ?_, ?_, ?_⟩
  · decide +kernel
  · decide +kernel
  · decide +kernel
  · decide +kernel

end DialdTop
