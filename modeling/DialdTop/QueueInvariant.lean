import DialdTop.Walks
import Mathlib.Data.Finset.Dedup
import Mathlib.Order.Bounds.Basic

/-!
# Representation of the port queue

The queue is represented six times over: by the list, the number of ports, the
set of their descriptors, the greatest descriptor, the number of monitoring
ports, and the fields of the monitor FIFO.  Every operation of the server keeps
the six in agreement.
-/

namespace DialdTop

open Program
open Relation (ReflTransGen)

/-! ## The greatest descriptor -/

/-- `maxfd` is the greatest member of the set, or -1 when there is none. -/
def IsMaxfd (full : Finset Int) (maxfd : Int) : Prop :=
  (full = ∅ ∧ maxfd = -1) ∨ IsGreatest (↑full : Set Int) maxfd

theorem IsMaxfd.insert
    {full : Finset Int} {maxfd fd : Int} (hmax : IsMaxfd full maxfd) (hfd : 0 ≤ fd) :
    IsMaxfd (insert fd full) (if fd > maxfd then fd else maxfd) := by
  right
  rcases hmax with ⟨hempty, hnone⟩ | ⟨hmem, hle⟩
  · subst full
    rw [if_pos (by omega)]
    simp
  · split
    · refine ⟨by simp, ?_⟩
      intro x hx
      rw [Finset.mem_coe, Finset.mem_insert] at hx
      rcases hx with hx | hx
      · omega
      · have := hle hx
        omega
    · refine ⟨by simpa using Or.inr hmem, ?_⟩
      intro x hx
      rw [Finset.mem_coe, Finset.mem_insert] at hx
      rcases hx with hx | hx
      · omega
      · exact hle hx

/-- The loop of `adjust_maxfd` finds the greatest member below its bound. -/
theorem isMaxfd_scan (full : Finset Int) (bound : ℕ) :
    IsMaxfd (full.filter fun x => 0 ≤ x ∧ x < bound)
      ((List.range bound).foldl
        (fun (max : Int) (i : ℕ) => if (i : Int) ∈ full then (i : Int) else max) (-1)) := by
  induction bound with
  | zero =>
      left
      refine ⟨?_, rfl⟩
      ext x
      simp only [Finset.mem_filter]
      constructor
      · intro h
        omega
      · intro h
        simp at h
  | succ bound ih =>
      rw [List.range_succ, List.foldl_append, List.foldl_cons, List.foldl_nil]
      by_cases hmem : (bound : Int) ∈ full
      · rw [if_pos hmem]
        right
        constructor
        · rw [Finset.mem_coe, Finset.mem_filter]
          exact ⟨hmem, by omega⟩
        · intro x hx
          rw [Finset.mem_coe, Finset.mem_filter] at hx
          omega
      · rw [if_neg hmem, filter_below_succ_of_notMem hmem]
        exact ih

theorem IsMaxfd.adjust
    {fds : ThreadFds} {full : Finset Int} {maxfd fd : Int}
    (hmax : IsMaxfd full maxfd) (hnonneg : ∀ x ∈ full, 0 ≤ x)
    (hmaxfd : fds.maxfd = maxfd) (hfull : fds.full = full.erase fd) :
    IsMaxfd fds.full (adjustMaxfd fds fd) := by
  subst maxfd
  unfold adjustMaxfd
  by_cases hfd : fds.maxfd = fd
  · rw [if_neg (by simpa using hfd)]
    have hscan := isMaxfd_scan fds.full (fds.maxfd + 1).toNat
    have hall : (fds.full.filter fun x => 0 ≤ x ∧ x < ((fds.maxfd + 1).toNat : Int)) =
        fds.full := by
      rw [Finset.filter_eq_self, hfull]
      intro x hx
      have hx' := Finset.mem_of_mem_erase hx
      have hpos := hnonneg x hx'
      rcases hmax with ⟨hempty, _⟩ | ⟨_, hle⟩
      · simp [hempty] at hx'
      · have := hle hx'
        omega
    rw [hall] at hscan
    exact hscan
  · rw [if_pos (by simpa using hfd), hfull]
    rcases hmax with ⟨hempty, hnone⟩ | ⟨hmem, hle⟩
    · left
      simp [hempty, hnone]
    · right
      constructor
      · exact Finset.mem_coe.mpr (Finset.mem_erase.mpr ⟨hfd, hmem⟩)
      · intro x hx
        exact hle (Finset.mem_of_mem_erase hx)

/-! ## The invariant -/

/-- The redundant data agree with the queue and with `monitorfd`. -/
structure QueueInv (s : Server) : Prop where
  distinct : (s.pq.map Port.fd).Nodup
  inRange : ∀ p ∈ s.pq, 0 ≤ p.fd ∧ p.fd < fdSetSize
  fullcount : s.ps.fullcount = s.pq.length
  full : s.ps.full = (s.pq.map Port.fd).toFinset
  maxfd : IsMaxfd s.ps.full s.ps.maxfd
  monitorcount : s.monitorcount = s.pq.countP (·.has flagMonitor)
  fifoClosed : s.monitorfd = -1 →
    s.fs.fullcount = 0 ∧ s.fs.full = ∅ ∧ s.fs.maxfd = -1
  fifoOpen : s.monitorfd ≠ -1 →
    s.fs.fullcount = 1 ∧ s.fs.full = {s.monitorfd} ∧ s.fs.maxfd = s.monitorfd

/-- The feed is open as long as somebody monitors. -/
structure RepInv (s : Server) : Prop extends QueueInv s where
  feed : 0 < s.monitorcount → s.monitorfd ≠ -1

theorem QueueInv.mem_full {s : Server} (hinv : QueueInv s) {p : Port}
    (hp : p ∈ s.pq) : p.fd ∈ s.ps.full := by
  rw [hinv.full, List.mem_toFinset]
  exact List.mem_map_of_mem hp

theorem QueueInv.position_unique {s : Server} (hinv : QueueInv s) {c d : ℕ} {p : Port}
    (hc : s.pq[c]? = some p) (hd : s.pq[d]? = some p) : c = d := by
  have hc' : (s.pq.map Port.fd)[c]? = some p.fd := by simp [hc]
  have hd' : (s.pq.map Port.fd)[d]? = some p.fd := by simp [hd]
  have hlt : c < (s.pq.map Port.fd).length := by
    rw [List.getElem?_eq_some_iff] at hc'
    exact hc'.1
  exact (List.getElem?_inj hlt hinv.distinct).mp (hc'.trans hd'.symm)

theorem QueueInv.closePort_run {s : Server} (hinv : QueueInv s) {c : ℕ} {p : Port}
    (hp : s.pq[c]? = some p) : (DialdTop.closePort c).run s = .ok ((), s.closed c p) := by
  have hmem : p ∈ s.pq := List.mem_of_getElem? hp
  rcases findNode_spec hp with ⟨found, hfound, hq⟩
  rw [hinv.position_unique hq hp] at hfound
  exact closePort_run_found hp (hinv.inRange p hmem) (hinv.mem_full hmem) hfound

theorem QueueInv.fifo_count {s : Server} (hinv : QueueInv s) :
    s.fs.fullcount = 0 ↔ s.monitorfd = -1 := by
  constructor
  · intro hcount
    by_contra hopen
    have := (hinv.fifoOpen hopen).1
    omega
  · intro hclosed
    exact (hinv.fifoClosed hclosed).1

theorem QueueInv.log {s : Server} (hinv : QueueInv s) (event : Event) :
    QueueInv (s.log event) :=
  { hinv with }

theorem QueueInv.enqueued
    {s : Server} (hinv : QueueInv s) {p : Port}
    (hrange : 0 ≤ p.fd ∧ p.fd < fdSetSize) (hnew : p.fd ∉ s.ps.full)
    (hmonitor : p.has flagMonitor = false) : QueueInv (s.enqueued p) where
  distinct := by
    rw [hinv.full, List.mem_toFinset] at hnew
    exact List.nodup_cons.mpr ⟨hnew, hinv.distinct⟩
  inRange := by
    intro q hq
    rcases List.mem_cons.mp hq with hq | hq
    · rw [hq]
      exact hrange
    · exact hinv.inRange q hq
  fullcount := by
    simp [Server.enqueued, hinv.fullcount]
  full := by
    simp [Server.enqueued, hinv.full]
  maxfd := hinv.maxfd.insert hrange.1
  monitorcount := by
    simp [Server.enqueued, hinv.monitorcount, hmonitor]
  fifoClosed := hinv.fifoClosed
  fifoOpen := hinv.fifoOpen

theorem QueueInv.closed
    {s : Server} (hinv : QueueInv s) {c : ℕ} {p : Port} (hp : s.pq[c]? = some p) :
    QueueInv (s.closed c p) := by
  rcases queue_split hp with ⟨front, rest, hpq, hlen⟩
  subst c
  have herase : (s.closed front.length p).pq = front ++ rest := by
    simp only [Server.closed, hpq, eraseIdx_append_cons]
  have hperm : (s.pq.map Port.fd).Perm (p.fd :: (front ++ rest).map Port.fd) := by
    rw [hpq]
    exact List.perm_middle.map Port.fd
  have hnodup := hperm.nodup_iff.mp hinv.distinct
  rw [List.nodup_cons] at hnodup
  have hcleared :
      s.ps.full.erase p.fd = ((front ++ rest).map Port.fd).toFinset := by
    rw [hinv.full, List.toFinset_eq_of_perm _ _ hperm, List.toFinset_cons,
      Finset.erase_insert]
    simpa using hnodup.1
  constructor
  · rw [herase]
    exact hnodup.2
  · rw [herase]
    intro q hq
    apply hinv.inRange q
    rw [hpq]
    rw [List.mem_append] at hq ⊢
    rcases hq with hq | hq
    · exact Or.inl hq
    · exact Or.inr (List.mem_cons_of_mem p hq)
  · have hcount := hinv.fullcount
    rw [herase]
    simp only [hpq, Server.closed, List.length_append, List.length_cons] at hcount ⊢
    omega
  · rw [herase]
    exact hcleared
  · have hnonneg : ∀ x ∈ s.ps.full, 0 ≤ x := by
      intro x hx
      rw [hinv.full, List.mem_toFinset, List.mem_map] at hx
      rcases hx with ⟨q, hq, hqx⟩
      rw [← hqx]
      exact (hinv.inRange q hq).1
    let cleared : ThreadFds :=
      { s.ps with fullcount := s.ps.fullcount - 1, full := s.ps.full.erase p.fd }
    have hadjust : IsMaxfd cleared.full (adjustMaxfd cleared p.fd) :=
      hinv.maxfd.adjust hnonneg rfl rfl
    exact hadjust
  · have hcount := hinv.monitorcount
    rw [herase]
    rw [hpq, List.countP_append, List.countP_cons] at hcount
    simp only [Server.closed, List.countP_append]
    split at hcount
    · rw [if_pos ‹_›]
      omega
    · rw [if_neg ‹_›]
      omega
  · exact hinv.fifoClosed
  · exact hinv.fifoOpen

theorem QueueInv.fd_not_mem_closed
    {s : Server} (hinv : QueueInv s) {c : ℕ} {p : Port} (hp : s.pq[c]? = some p) :
    p.fd ∉ (s.closed c p).pq.map Port.fd := by
  rcases queue_split hp with ⟨front, rest, hpq, hlen⟩
  subst c
  have hnodup := hinv.distinct
  rw [hpq, List.map_append, List.map_cons, List.nodup_middle, List.nodup_cons] at hnodup
  simp only [Server.closed, hpq, eraseIdx_append_cons, List.map_append]
  exact hnodup.1

/-- A change of one port which keeps its descriptor keeps the invariant when
`monitorcount` follows the flag. -/
theorem QueueInv.modified
    {s t : Server} (hinv : QueueInv s) {c : ℕ} {p : Port} (hp : s.pq[c]? = some p)
    {f : Port → Port} (hfd : (f p).fd = p.fd) (hpq : t.pq = s.pq.modify c f)
    (hps : t.ps = s.ps) (hfs : t.fs = s.fs) (hmonitorfd : t.monitorfd = s.monitorfd)
    (hcount : t.monitorcount + (if p.has flagMonitor then 1 else 0) =
      s.monitorcount + if (f p).has flagMonitor then 1 else 0) :
    QueueInv t := by
  rcases queue_split hp with ⟨front, rest, hsplit, hlen⟩
  subst c
  rw [hsplit, modify_append_cons] at hpq
  have hmap : t.pq.map Port.fd = s.pq.map Port.fd := by
    rw [hpq, hsplit]
    simp [hfd]
  constructor
  · rw [hmap]
    exact hinv.distinct
  · intro q hq
    have hq' : q.fd ∈ s.pq.map Port.fd := by
      rw [← hmap]
      exact List.mem_map_of_mem hq
    rcases List.mem_map.mp hq' with ⟨r, hr, hrq⟩
    rw [← hrq]
    exact hinv.inRange r hr
  · rw [hps, hinv.fullcount, ← List.length_map Port.fd, ← hmap, List.length_map]
  · rw [hps, hmap]
    exact hinv.full
  · rw [hps]
    exact hinv.maxfd
  · have hold := hinv.monitorcount
    rw [hsplit, List.countP_append, List.countP_cons] at hold
    rw [hpq, List.countP_append, List.countP_cons]
    split at hcount <;> split at hcount <;> simp_all <;> omega
  · rw [hfs, hmonitorfd]
    exact hinv.fifoClosed
  · rw [hfs, hmonitorfd]
    exact hinv.fifoOpen

theorem QueueInv.monitorOff
    {s : Server} (hinv : QueueInv s) {c : ℕ} {p : Port} (hp : s.pq[c]? = some p)
    (hmonitor : p.has flagMonitor) : QueueInv (s.monitorOff c) :=
  hinv.modified hp rfl rfl rfl rfl rfl (by simp [Server.monitorOff, hmonitor])

theorem QueueInv.monitorOn
    {s : Server} (hinv : QueueInv s) {c : ℕ} {p : Port} (hp : s.pq[c]? = some p)
    (hmonitor : ¬ p.has flagMonitor) : QueueInv (s.monitorOn c) :=
  hinv.modified hp rfl rfl rfl rfl rfl (by simp [Server.monitorOn, hmonitor])

theorem QueueInv.monitorFailed
    {s : Server} (hinv : QueueInv s) (hclosed : s.monitorfd = -1) (path : List Byte) :
    QueueInv (s.monitorFailed path) :=
  { hinv with
    fifoClosed := fun _ => hinv.fifoClosed hclosed
    fifoOpen := fun hopen => absurd rfl hopen }

theorem QueueInv.monitorOpened
    {s : Server} (hinv : QueueInv s) {fd : Int} (hfd : 0 ≤ fd)
    (path : List Byte) (result : WriteResult) :
    QueueInv (s.monitorOpened path fd result) :=
  { hinv with
    fifoClosed := by
      intro hclosed
      have hminus : fd = -1 := hclosed
      omega
    fifoOpen := fun _ => ⟨rfl, rfl, rfl⟩ }

theorem QueueInv.monitorClosed {s : Server} (hinv : QueueInv s) :
    QueueInv s.monitorClosed :=
  { hinv with
    fifoClosed := fun _ => ⟨rfl, rfl, rfl⟩
    fifoOpen := fun hopen => absurd rfl hopen }

theorem QueueInv.regraded
    {s : Server} (hinv : QueueInv s) (trace : List Event) :
    QueueInv { s with pq := s.pq.map (Port.regraded s.aq), trace := trace } := by
  have hmap : (s.pq.map (Port.regraded s.aq)).map Port.fd = s.pq.map Port.fd := by
    rw [List.map_map]
    rfl
  constructor
  · rw [hmap]
    exact hinv.distinct
  · intro q hq
    rcases List.mem_map.mp hq with ⟨p, hp, hpq⟩
    rw [← hpq]
    exact hinv.inRange p hp
  · rw [List.length_map]
    exact hinv.fullcount
  · rw [hmap]
    exact hinv.full
  · exact hinv.maxfd
  · rw [List.countP_map]
    have hsame : (fun p => Port.has p flagMonitor) ∘ Port.regraded s.aq =
        fun p => Port.has p flagMonitor := by
      funext p
      exact Port.regraded_has_monitor s.aq p
    rw [hsame]
    exact hinv.monitorcount
  · exact hinv.fifoClosed
  · exact hinv.fifoOpen

/-! ## The operations -/

theorem QueueInv.closePort
    {s next : Server} {c : ℕ} {u : Unit} (hinv : QueueInv s)
    (hrun : (closePort c).run s = .ok (u, next)) : QueueInv next := by
  rcases closePort_cases hrun with ⟨p, _, ⟨_, hnext⟩ | ⟨found, hfound, _, hnext⟩⟩
  · rw [hnext]
    exact hinv
  · rw [hnext]
    exact hinv.closed hfound

theorem QueueInv.monitorOpen
    {env : Env} {s next : Server} {u : Unit} (hinv : QueueInv s)
    (hrun : (monitorOpen env).run s = .ok (u, next)) : QueueInv next := by
  rcases monitorOpen_cases hrun with ⟨_, hnext⟩ | ⟨hclosed, path, hnext | hnext⟩
  · rw [hnext]
    exact hinv
  · rw [hnext.1]
    exact hinv.monitorFailed hclosed path
  · rcases hnext with ⟨fd, result, _, hfresh, hnext⟩
    rw [hnext]
    exact hinv.monitorOpened hfresh.1 path result

theorem QueueInv.command
    {env : Env} {line : List Byte} {c : ℕ} {p : Port} {s next : Server} {closed : Bool}
    (hinv : QueueInv s) (hp : s.pq[c]? = some p)
    (hcommand : Command env line c p s closed next) : QueueInv next := by
  cases hcommand with
  | ignored => exact hinv
  | monitorOff hmonitor => exact hinv.monitorOff hp hmonitor
  | monitorOn hmonitor _ => exact hinv.monitorOn hp hmonitor
  | monitorOpen hmonitor _ hopen => exact (hinv.monitorOn hp hmonitor).monitorOpen hopen
  | close hclose => exact hinv.closePort hclose
  | control => exact hinv.log _
  | refuse => exact hinv.log _

theorem QueueInv.serveEffect
    {env : Env} {s next : Server} (heffect : ServeEffect env s next)
    (hinv : QueueInv s) : QueueInv next := by
  cases heffect with
  | hangup chunk _ hclose => exact (hinv.log _).closePort hclose
  | command hp hcommand => exact (hinv.log _).command hp hcommand

theorem QueueInv.relayEffect
    {s next : Server} (heffect : RelayEffect s next) (hinv : QueueInv s) :
    QueueInv next := by
  cases heffect with
  | drained => exact hinv.log _
  | relayed => exact hinv.log _
  | close hclose => exact hinv.closePort hclose
  | monitorClose => exact hinv.monitorClosed

theorem QueueInv.monitorcount_of_empty {s : Server} (hinv : QueueInv s)
    (hempty : s.ps.fullcount = 0) : s.monitorcount = 0 := by
  have hlength := hinv.fullcount
  have hnil : s.pq = [] := by
    rw [← List.length_eq_zero_iff]
    omega
  rw [hinv.monitorcount, hnil]
  rfl

/-! ## The feed -/

theorem Started.repInv {s : Server} (hstart : Started s) : RepInv s where
  distinct := by simp [hstart.pq]
  inRange := by simp [hstart.pq]
  fullcount := by simp [hstart.pq, hstart.ps, ThreadFds.empty]
  full := by simp [hstart.pq, hstart.ps, ThreadFds.empty]
  maxfd := Or.inl (by simp [hstart.ps, ThreadFds.empty])
  monitorcount := by simp [hstart.pq, hstart.monitorcount]
  fifoClosed := by simp [hstart.fs, ThreadFds.empty]
  fifoOpen := fun hopen => absurd hstart.monitorfd hopen
  feed := by simp [hstart.monitorcount]

theorem RepInv.closePort
    {s next : Server} {c : ℕ} {u : Unit} (hinv : RepInv s)
    (hrun : (closePort c).run s = .ok (u, next)) : RepInv next := by
  refine ⟨hinv.toQueueInv.closePort hrun, ?_⟩
  rcases closePort_cases hrun with ⟨p, _, ⟨_, hnext⟩ | ⟨found, _, _, hnext⟩⟩
  · rw [hnext]
    exact hinv.feed
  · rw [hnext]
    intro hcount
    apply hinv.feed
    simp only [Server.closed] at hcount
    split at hcount
    · omega
    · exact hcount

/-- `open` finds the FIFO with a fresh descriptor. -/
def OpensMonitor (env : Env) : Prop :=
  ∀ s, ∃ fd, env.openMonitor s = some fd ∧ s.fresh fd

theorem RepInv.command
    {env : Env} {line : List Byte} {c : ℕ} {p : Port} {s next : Server} {closed : Bool}
    (hopens : OpensMonitor env) (hinv : RepInv s) (hp : s.pq[c]? = some p)
    (hcommand : Command env line c p s closed next) : RepInv next := by
  refine ⟨hinv.toQueueInv.command hp hcommand, ?_⟩
  cases hcommand with
  | ignored => exact hinv.feed
  | monitorOff hmonitor =>
      intro hcount
      apply hinv.feed
      simp only [Server.monitorOff] at hcount
      omega
  | monitorOn hmonitor hopen =>
      intro _
      rw [Ne, hinv.fifo_count] at hopen
      exact hopen
  | monitorOpen hmonitor hclosed hopen =>
      intro _
      rcases monitorOpen_cases hopen with ⟨hfd, hnext⟩ | ⟨_, path, hfailed | hopened⟩
      · rw [hnext]
        exact hfd
      · rcases hopens { s.monitorOn c with monitor := path } with ⟨fd, hanswer, hfresh⟩
        exact absurd hfresh (hfailed.2 fd hanswer)
      · rcases hopened with ⟨fd, result, _, hfresh, hnext⟩
        have hnonneg := hfresh.1
        have hfd : next.monitorfd = fd := by rw [hnext]; rfl
        omega
  | close hclose => exact (hinv.closePort hclose).feed
  | control => exact hinv.feed
  | refuse => exact hinv.feed

theorem RepInv.relayEffect
    {s next : Server} (heffect : RelayEffect s next) (hinv : RepInv s) :
    RepInv next := by
  refine ⟨hinv.toQueueInv.relayEffect heffect, ?_⟩
  cases heffect with
  | drained => exact hinv.feed
  | relayed => exact hinv.feed
  | close hclose => exact (hinv.closePort hclose).feed
  | monitorClose hidle hopen =>
      intro hcount
      have hcount' : 0 < s.monitorcount := hcount
      rcases hidle with hempty | hnobody
      · have hzero := hinv.monitorcount_of_empty hempty
        omega
      · omega

/-- The operations of the port server, in any order. -/
inductive PortStep : Server → Server → Prop
  | portEnqueue {env : Env} {p : Port} {s next : Server} {queued : Bool} :
      0 ≤ p.fd ∧ p.fd < fdSetSize → p.fd ∉ s.ps.full → p.has flagMonitor = false →
        (portEnqueue env p).run s = .ok (queued, next) → PortStep s next
  | closePort {s next : Server} {c : ℕ} :
      (closePort c).run s = .ok ((), next) → PortStep s next
  | parseIncoming {env : Env} {line : List Byte} {s next : Server} {c : ℕ}
      {closed : Bool} : OpensMonitor env →
        (parseIncoming env line c).run s = .ok (closed, next) → PortStep s next
  | fifoServer {env : Env} {fuel : ℕ} {s next : Server} :
      (fifoServer env fuel).run s = .ok ((), next) → PortStep s next
  | reauthenticateUsers {env : Env} {s next : Server} (aq : List AuthData) :
      (reauthenticateUsers env).run { s with aq := aq } = .ok ((), next) →
        PortStep s next

theorem RepInv.portStep {s next : Server} (hinv : RepInv s) (hstep : PortStep s next) :
    RepInv next := by
  cases hstep with
  | portEnqueue hrange hnew hmonitor hrun =>
      rcases portEnqueue_cases hrun with ⟨_, hnext⟩ | ⟨_, _, hnext⟩
      · rw [hnext]
        exact hinv
      · rw [hnext]
        exact ⟨hinv.toQueueInv.enqueued hrange hnew hmonitor, hinv.feed⟩
  | closePort hrun => exact hinv.closePort hrun
  | parseIncoming hopens hrun =>
      rcases parseIncoming_cases hrun with ⟨p, hp, hcommand⟩
      exact hinv.command hopens hp hcommand
  | fifoServer hrun =>
      have hstep : ∀ a b, RelayEffect a b → RepInv a → RepInv b := by
        intro a b heffect ha
        exact ha.relayEffect heffect
      exact invariant_of_effects hstep (fifoServer_effects hrun) hinv
  | reauthenticateUsers aq hrun =>
      have haq : RepInv { s with aq := aq } := { hinv with }
      rcases reauthenticateUsers_cases hrun with ⟨events, _, hnext⟩
      rw [hnext]
      exact ⟨haq.toQueueInv.regraded _, hinv.feed⟩

theorem repInv_of_reachable
    {env : Env} {s next : Server}
    (hstart : (start env).run Server.blank = .ok ((), s))
    (hsteps : ReflTransGen PortStep s next) : RepInv next := by
  have hstep : ∀ a b, PortStep a b → RepInv a → RepInv b := by
    intro a b hab ha
    exact ha.portStep hab
  exact invariant_of_effects hstep hsteps (start_cases hstart).repInv

def monitorClient : Port :=
  { fd := 7, sa := ⟨0x7f000001, 1024⟩, flag := flagRead, userid := none }

theorem repInv_of_reachable_monitored :
    RepInv (finalState ((parseIncoming .obliging (bytes "monitor \n") 0).run
      (finalState ((portEnqueue .obliging monitorClient).run
        (finalState ((start .obliging).run .blank)))))) := by
  let started := finalState ((start .obliging).run .blank)
  let queued := finalState ((portEnqueue .obliging monitorClient).run started)
  let monitored :=
    finalState ((parseIncoming .obliging (bytes "monitor \n") 0).run queued)
  have hstart : (start .obliging).run .blank = .ok ((), started) := by decide
  have hqueued :
      (portEnqueue .obliging monitorClient).run started = .ok (true, queued) := by
    decide
  have hmonitored :
      (parseIncoming .obliging (bytes "monitor \n") 0).run queued =
        .ok (false, monitored) := by
    decide +kernel
  have hopens : OpensMonitor .obliging := fun s => ⟨nextFd s, rfl, nextFd_fresh s⟩
  have hfirst : PortStep started queued :=
    .portEnqueue (by decide) (by decide) (by decide) hqueued
  have hsecond : PortStep queued monitored := .parseIncoming hopens hmonitored
  exact repInv_of_reachable hstart (.tail (.single hfirst) hsecond)

end DialdTop
