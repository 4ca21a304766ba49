import DialdTop.Operations
import Mathlib.Logic.Relation

/-!
# The walks along the queue

The loops of `port_server` and `fifo_server` visit queued ports in an order
which depends on the ports they close on the way.  `Command` lists what one
call of `parse_incoming` can do, and the effects what one round of either loop
can do.  A property which every effect preserves is preserved by the loop.
-/

namespace DialdTop

open Program
open Relation (ReflTransGen)

/-! ## One command -/

/-- The outcomes of `parse_incoming` for the port `p` at position `c`. -/
inductive Command (env : Env) (line : List Byte) (c : ℕ) (p : Port) (s : Server) :
    Bool → Server → Prop
  | ignored : Command env line c p s false s
  | monitorOff : p.has flagMonitor → Command env line c p s false (s.monitorOff c)
  | monitorOn : ¬ p.has flagMonitor → s.fs.fullcount ≠ 0 →
      Command env line c p s false (s.monitorOn c)
  | monitorOpen {next : Server} : ¬ p.has flagMonitor → s.fs.fullcount = 0 →
      (DialdTop.monitorOpen env).run (s.monitorOn c) = .ok ((), next) →
        Command env line c p s false next
  | close {next : Server} : (closePort c).run s = .ok ((), next) →
      Command env line c p s true next
  | control (result : WriteResult) : p.has flagWrite →
      Command env line c p s false
        (s.log (.write (.parseIncoming p) s.controlfd line result))
  | refuse (result : WriteResult) : ¬ p.has flagWrite →
      Command env line c p s false
        (s.log (.write (.parseIncoming p) p.fd (noControlLine line) result))

theorem parseIncoming_cases
    {env : Env} {line : List Byte} {c : ℕ} {s next : Server} {closed : Bool}
    (hrun : (parseIncoming env line c).run s = .ok (closed, next)) :
    ∃ p, s.pq[c]? = some p ∧ Command env line c p s closed next := by
  unfold parseIncoming at hrun
  split at hrun
  · -- monitor off
    rw [Prog.run_bind_eq_ok] at hrun
    rcases hrun with ⟨p, mid, hnode, hrest⟩
    rcases node_cases hnode with ⟨hp, hmid⟩
    subst mid
    refine ⟨p, hp, ?_⟩
    by_cases hmonitor : p.has flagMonitor
    · simp [hmonitor, assignFlag] at hrest
      rcases hrest with ⟨hclosed, hnext⟩
      subst closed
      subst next
      exact .monitorOff hmonitor
    · simp [hmonitor] at hrest
      rcases hrest with ⟨hclosed, hnext⟩
      subst closed
      subst next
      exact .ignored
  split at hrun
  · -- monitor on
    rw [Prog.run_bind_eq_ok] at hrun
    rcases hrun with ⟨p, mid, hnode, hrest⟩
    rcases node_cases hnode with ⟨hp, hmid⟩
    subst mid
    refine ⟨p, hp, ?_⟩
    by_cases hmonitor : p.has flagMonitor
    · simp [hmonitor] at hrest
      rcases hrest with ⟨hclosed, hnext⟩
      subst closed
      subst next
      exact .ignored
    · by_cases hfull : s.fs.fullcount = 0
      · simp [hmonitor, assignFlag, hfull] at hrest
        cases hopen : (monitorOpen env).run (s.monitorOn c) with
        | error reason =>
            erw [hopen] at hrest
            cases hrest
        | ok result =>
            erw [hopen] at hrest
            cases hrest
            exact .monitorOpen hmonitor hfull hopen
      · simp [hmonitor, assignFlag, hfull] at hrest
        rcases hrest with ⟨hclosed, hnext⟩
        subst closed
        subst next
        exact .monitorOn hmonitor hfull
  split at hrun
  · -- close
    rw [Prog.run_bind_eq_ok] at hrun
    rcases hrun with ⟨u, mid, hclose, hrest⟩
    simp only [Prog.run_pure, Except.ok.injEq, Prod.mk.injEq] at hrest
    rcases hrest with ⟨hclosed, hnext⟩
    subst closed
    subst next
    rcases closePort_cases hclose with ⟨p, hp, _⟩
    exact ⟨p, hp, .close hclose⟩
  · rw [Prog.run_bind_eq_ok] at hrun
    rcases hrun with ⟨p, mid, hnode, hrest⟩
    rcases node_cases hnode with ⟨hp, hmid⟩
    subst mid
    refine ⟨p, hp, ?_⟩
    by_cases hwrite : p.has flagWrite
    · simp [hwrite, sysWrite] at hrest
      rcases hrest with ⟨hclosed, hnext⟩
      subst closed
      subst next
      exact .control _ hwrite
    · by_cases hroom : (noControlLine line).length < 1024
      · simp [hwrite, intoBuffer, hroom, sysWrite, Except.map] at hrest
        rcases hrest with ⟨hclosed, hnext⟩
        subst closed
        subst next
        exact .refuse _ hwrite
      · simp [hwrite, intoBuffer, hroom, Except.map] at hrest

/-! ## One round of a loop -/

/-- A round of `port_server`, which reads from a port and then obeys or closes
it. -/
inductive ServeEffect (env : Env) : Server → Server → Prop
  | hangup {s next : Server} {c : ℕ} {p : Port} (chunk : Option (List Byte)) :
      s.pq[c]? = some p →
        (closePort c).run (s.log (.read p.fd chunk)) = .ok ((), next) →
          ServeEffect env s next
  | command {s next : Server} {c : ℕ} {p : Port} {line : List Byte} {closed : Bool} :
      s.pq[c]? = some p →
        Command env line c p (s.log (.read p.fd (some line))) closed next →
          ServeEffect env s next

/-- A round of `port_server` with what it has read. -/
inductive ServeRound (env : Env) : Server → Server → Prop
  | hangup {s next : Server} {c : ℕ} {p : Port} {chunk : Option (List Byte)} :
      s.pq[c]? = some p → chunk.getD [] = [] →
        (closePort c).run (s.log (.read p.fd chunk)) = .ok ((), next) → ServeRound env s next
  | command {s next : Server} {c : ℕ} {p : Port} {line : List Byte} {closed : Bool} :
      s.pq[c]? = some p → line ≠ [] →
        (parseIncoming env line c).run (s.log (.read p.fd (some line))) = .ok (closed, next) →
          ServeRound env s next

theorem ServeRound.effect
    {env : Env} {s next : Server} (hround : ServeRound env s next) : ServeEffect env s next := by
  cases hround with
  | hangup hp _ hclose => exact .hangup _ hp hclose
  | @command c p line closed hp _ hparse =>
      rcases parseIncoming_cases hparse with ⟨q, hq, hcommand⟩
      have hpq : p = q := by
        have hq' : s.pq[c]? = some q := hq
        rw [hp] at hq'
        exact Option.some.inj hq'
      subst q
      exact .command hp hcommand

/-- A step of `fifo_server`. -/
inductive RelayEffect : Server → Server → Prop
  | drained {s : Server} (chunk : Option (List Byte)) :
      RelayEffect s (s.log (.read s.monitorfd chunk))
  | relayed {s : Server} {c : ℕ} {p : Port} (chunk : List Byte) (result : WriteResult) :
      s.pq[c]? = some p → p.has flagMonitor →
        RelayEffect s (s.log (.write .fifoServer p.fd chunk result))
  | close {s next : Server} {c : ℕ} : (closePort c).run s = .ok ((), next) →
      RelayEffect s next
  | monitorClose {s : Server} : s.ps.fullcount = 0 ∨ s.monitorcount = 0 →
      s.monitorfd ≠ -1 → RelayEffect s s.monitorClosed

/-- The cursor between two parts of the queue. -/
def cursor (front rest : List Port) : Option ℕ :=
  if rest = [] then none else some front.length

theorem advance_run_none {s : Server} {rest : List Port} (hpq : s.pq = rest) :
    (advance none).run s = .ok (cursor [] rest, s) := by
  cases rest with
  | nil => simp [advance, hpq, cursor]
  | cons p rest => simp [advance, hpq, cursor]

theorem advance_run_some
    {s : Server} {front rest : List Port} {p : Port} (hpq : s.pq = front ++ p :: rest) :
    (advance (some front.length)).run s = .ok (cursor (front ++ [p]) rest, s) := by
  cases rest with
  | nil => simp [advance, hpq, cursor]
  | cons q rest => simp [advance, hpq, cursor]

theorem advance_cases
    {curr next : Option ℕ} {s last : Server}
    (hrun : (advance curr).run s = .ok (next, last)) : last = s := by
  simp only [advance, run_look, Except.ok.injEq, Prod.mk.injEq] at hrun
  exact hrun.2.symm

theorem serve_rounds
    {env : Env} {count : Int} {fuel : ℕ} {curr prev : Option ℕ} {i : Int}
    {s next : Server}
    (hrun : (serve env count fuel curr prev i).run s = .ok ((), next)) :
    ReflTransGen (ServeRound env) s next := by
  induction fuel generalizing curr prev i s with
  | zero => simp [serve] at hrun
  | succ fuel ih =>
      cases curr with
      | none =>
          simp only [serve, Prog.run_pure, Except.ok.injEq, Prod.mk.injEq] at hrun
          rw [hrun.2]
      | some c =>
          by_cases hi : i < count
          · simp only [serve, if_pos hi] at hrun
            rw [Prog.run_bind_eq_ok] at hrun
            rcases hrun with ⟨p, mid, hnode, hrun⟩
            rcases node_cases hnode with ⟨hp, hmid⟩
            subst mid
            rw [Prog.run_bind_eq_ok] at hrun
            rcases hrun with ⟨ready, mid, hready, hrun⟩
            rcases attempt_cases hready with ⟨_, hmid⟩
            subst mid
            cases ready with
            | false =>
                rw [if_neg (by simp), Prog.run_bind_eq_ok] at hrun
                rcases hrun with ⟨after, mid, hadvance, hrun⟩
                rw [advance_cases hadvance] at hrun
                exact ih hrun
            | true =>
                rw [if_pos rfl, Prog.run_bind_eq_ok] at hrun
                rcases hrun with ⟨chunk, mid, hread, hrun⟩
                rcases sysRead_cases hread with ⟨_, hmid⟩
                subst mid
                split at hrun
                next =>
                  rw [Prog.run_bind_eq_ok] at hrun
                  rcases hrun with ⟨closed, mid, hparse, hrun⟩
                  rw [Prog.run_bind_eq_ok] at hrun
                  rcases hrun with ⟨after, last, hadvance, hrun⟩
                  rw [advance_cases hadvance] at hrun
                  exact .head (.command hp (List.cons_ne_nil _ _) hparse) (ih hrun)
                next hother =>
                  have hend : chunk.getD [] = [] := by
                    rcases chunk with _ | _ | ⟨b, bs⟩
                    · rfl
                    · rfl
                    · exact (hother b bs rfl).elim
                  rw [Prog.run_bind_eq_ok] at hrun
                  rcases hrun with ⟨u, mid, hclose, hrun⟩
                  rw [Prog.run_bind_eq_ok] at hrun
                  rcases hrun with ⟨after, last, hadvance, hrun⟩
                  rw [advance_cases hadvance] at hrun
                  exact .head (.hangup hp hend hclose) (ih hrun)
          · simp only [serve, if_neg hi, Prog.run_pure, Except.ok.injEq,
              Prod.mk.injEq] at hrun
            rw [hrun.2]

theorem portServer_rounds
    {env : Env} {fuel : ℕ} {s next : Server}
    (hrun : (portServer env fuel).run s = .ok ((), next)) :
    ReflTransGen (ServeRound env) s next := by
  unfold portServer at hrun
  rw [Prog.run_bind, run_look] at hrun
  rw [Prog.run_bind_eq_ok] at hrun
  rcases hrun with ⟨first, mid, hadvance, hrun⟩
  rw [advance_cases hadvance] at hrun
  exact serve_rounds hrun

theorem portServer_effects
    {env : Env} {fuel : ℕ} {s next : Server}
    (hrun : (portServer env fuel).run s = .ok ((), next)) :
    ReflTransGen (ServeEffect env) s next :=
  ReflTransGen.mono (fun _ _ hround => ServeRound.effect hround) _ _ (portServer_rounds hrun)

/-- A round of the loop along the queue, with the rounds behind it. -/
inductive RelayRound (env : Env) (chunk : List Byte) (fuel : ℕ) (i : Int) (s : Server) :
    Server → Prop
  | ended : RelayRound env chunk fuel i s s
  | passed {after : Option ℕ} {next : Server} :
      (relay env chunk fuel after i).run s = .ok ((), next) → RelayRound env chunk fuel i s next
  | written {c : ℕ} {p : Port} {after : Option ℕ} {next : Server} (result : WriteResult) :
      s.pq[c]? = some p → p.has flagMonitor →
        (relay env chunk fuel after (i + 1)).run
          (s.log (.write .fifoServer p.fd chunk result)) = .ok ((), next) →
            RelayRound env chunk fuel i s next
  | hungUp {c : ℕ} {p : Port} {after : Option ℕ} {closed next : Server} (result : WriteResult) :
      s.pq[c]? = some p → p.has flagMonitor →
        (closePort c).run (s.log (.write .fifoServer p.fd chunk result)) = .ok ((), closed) →
          (relay env chunk fuel after (i + 1)).run closed = .ok ((), next) →
            RelayRound env chunk fuel i s next

theorem relay_cases
    {env : Env} {chunk : List Byte} {fuel : ℕ} {curr : Option ℕ} {i : Int} {s next : Server}
    (hrun : (relay env chunk (fuel + 1) curr i).run s = .ok ((), next)) :
    RelayRound env chunk fuel i s next := by
  cases curr with
  | none =>
      simp only [relay, Prog.run_pure, Except.ok.injEq, Prod.mk.injEq] at hrun
      rw [← hrun.2]
      exact .ended
  | some c =>
      simp only [relay] at hrun
      rw [Prog.run_bind, run_test] at hrun
      by_cases hi : i < s.monitorcount
      · simp only [hi, decide_true, if_true] at hrun
        rw [Prog.run_bind_eq_ok] at hrun
        rcases hrun with ⟨p, mid, hnode, hrun⟩
        rcases node_cases hnode with ⟨hp, hmid⟩
        subst mid
        by_cases hmonitor : p.has flagMonitor
        · rw [if_pos hmonitor, Prog.run_bind_eq_ok] at hrun
          rcases hrun with ⟨res, mid, hwrite, hrun⟩
          rcases sysWrite_cases hwrite with ⟨_, hmid⟩
          subst mid
          split at hrun
          · rw [Prog.run_bind_eq_ok] at hrun
            rcases hrun with ⟨u, mid, hclose, hrun⟩
            rw [Prog.run_bind_eq_ok] at hrun
            rcases hrun with ⟨after, last, hadvance, hrun⟩
            rw [advance_cases hadvance] at hrun
            exact .hungUp res hp hmonitor hclose hrun
          · rw [Prog.run_bind_eq_ok] at hrun
            rcases hrun with ⟨after, last, hadvance, hrun⟩
            rw [advance_cases hadvance] at hrun
            exact .written res hp hmonitor hrun
        · rw [if_neg hmonitor, Prog.run_bind_eq_ok] at hrun
          rcases hrun with ⟨after, last, hadvance, hrun⟩
          rw [advance_cases hadvance] at hrun
          exact .passed hrun
      · simp [hi] at hrun
        rw [← hrun]
        exact .ended

theorem relay_effects
    {env : Env} {chunk : List Byte} {fuel : ℕ} {curr : Option ℕ} {i : Int}
    {s next : Server}
    (hrun : (relay env chunk fuel curr i).run s = .ok ((), next)) :
    ReflTransGen RelayEffect s next := by
  induction fuel generalizing curr i s with
  | zero => simp [relay] at hrun
  | succ fuel ih =>
      cases relay_cases hrun with
      | ended => exact .refl
      | passed hrest => exact ih hrest
      | written result hp hmonitor hrest =>
          exact .head (.relayed chunk result hp hmonitor) (ih hrest)
      | hungUp result hp hmonitor hclose hrest =>
          exact .head (.relayed chunk result hp hmonitor) (.head (.close hclose) (ih hrest))

theorem relayChunk_effects
    {env : Env} {chunk : List Byte} {walk : ℕ} {s next : Server}
    (hrun : (relayChunk env chunk walk).run s = .ok ((), next)) :
    ReflTransGen RelayEffect s next := by
  unfold relayChunk at hrun
  rw [Prog.run_bind_eq_ok] at hrun
  rcases hrun with ⟨first, mid, hadvance, hrun⟩
  rw [advance_cases hadvance] at hrun
  exact relay_effects hrun

/-- A round of the loop over the chunks, with the rounds behind it. -/
inductive RelayAllRound (env : Env) (walk fuel : ℕ) (s : Server) : Server → Prop
  | drained {answer : Option (List Byte)} : answer = none ∨ answer = some [] →
      RelayAllRound env walk fuel s (s.log (.read s.monitorfd answer))
  | last {chunk : List Byte} {next : Server} :
      (relayChunk env chunk walk).run (s.log (.read s.monitorfd (some chunk))) =
        .ok ((), next) → next.monitorcount = 0 → RelayAllRound env walk fuel s next
  | relayed {chunk : List Byte} {mid next : Server} :
      (relayChunk env chunk walk).run (s.log (.read s.monitorfd (some chunk))) =
        .ok ((), mid) →
          (relayAll env walk fuel).run mid = .ok ((), next) → RelayAllRound env walk fuel s next

theorem relayAll_cases
    {env : Env} {walk fuel : ℕ} {s next : Server}
    (hrun : (relayAll env walk (fuel + 1)).run s = .ok ((), next)) :
    RelayAllRound env walk fuel s next := by
  unfold relayAll at hrun
  rw [Prog.run_bind, run_look] at hrun
  rw [Prog.run_bind_eq_ok] at hrun
  rcases hrun with ⟨answer, mid, hread, hrun⟩
  rcases sysRead_cases hread with ⟨_, hmid⟩
  subst mid
  split at hrun
  · simp only [Prog.run_pure, Except.ok.injEq, Prod.mk.injEq] at hrun
    rw [← hrun.2]
    exact .drained (Or.inl rfl)
  · simp only [Prog.run_pure, Except.ok.injEq, Prod.mk.injEq] at hrun
    rw [← hrun.2]
    exact .drained (Or.inr rfl)
  · rw [Prog.run_bind_eq_ok] at hrun
    rcases hrun with ⟨u, mid, hrelay, hrun⟩
    rw [Prog.run_bind, run_test] at hrun
    by_cases hdone : mid.monitorcount = 0
    · simp [hdone] at hrun
      subst hrun
      exact .last hrelay hdone
    · simp [hdone] at hrun
      exact .relayed hrelay hrun

theorem relayAll_effects
    {env : Env} {walk fuel : ℕ} {s next : Server}
    (hrun : (relayAll env walk fuel).run s = .ok ((), next)) :
    ReflTransGen RelayEffect s next := by
  induction fuel generalizing s with
  | zero => simp [relayAll] at hrun
  | succ fuel ih =>
      cases relayAll_cases hrun with
      | drained => exact .single (.drained _)
      | last hrelay _ => exact .head (.drained _) (relayChunk_effects hrelay)
      | relayed hrelay hrest =>
          exact .head (.drained _) ((relayChunk_effects hrelay).trans (ih hrest))

theorem fifoServer_effects
    {env : Env} {fuel : ℕ} {s next : Server}
    (hrun : (fifoServer env fuel).run s = .ok ((), next)) :
    ReflTransGen RelayEffect s next := by
  unfold fifoServer at hrun
  rw [Prog.run_bind, run_test] at hrun
  by_cases hidle : s.ps.fullcount = 0 ∨ s.monitorcount = 0
  · simp only [hidle, decide_true, if_true, monitorClose_run, Except.ok.injEq,
      Prod.mk.injEq, true_and] at hrun
    by_cases hopen : s.monitorfd = -1
    · rw [if_pos hopen] at hrun
      rw [hrun]
    · rw [if_neg hopen] at hrun
      rw [← hrun]
      exact .single (.monitorClose hidle hopen)
  · simp only [hidle, decide_false] at hrun
    exact relayAll_effects hrun

/-- The induction rule for both walks. -/
theorem invariant_of_effects
    {effect : Server → Server → Prop} {I : Server → Prop} {s next : Server}
    (hstep : ∀ a b, effect a b → I a → I b)
    (heffects : ReflTransGen effect s next) (hs : I s) :
    I next := by
  induction heffects with
  | refl => exact hs
  | tail _ heffect ih => exact hstep _ _ heffect ih

end DialdTop
