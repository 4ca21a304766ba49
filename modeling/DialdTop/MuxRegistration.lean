import DialdTop.Demultiplexing
import DialdTop.FeedRetry
import DialdTop.ServerInvariant

/-!
# Registration of the descriptors

`select` leaves only what is ready in the common set, so that `mux_fds` has to
build it anew in each round.  Its three loops end at the greatest descriptor
which their component has noted, and each counts what it enters.  Nothing is
counted twice since the components share no descriptor.
-/

namespace DialdTop

open Program
open Relation (ReflTransGen)

/-! ## Merging the components -/

/-- `maxfd` agrees with the set. -/
structure ThreadFds.Tracked (fds : ThreadFds) : Prop where
  nonneg : ∀ fd ∈ fds.full, 0 ≤ fd
  maxfd : IsMaxfd fds.full fds.maxfd

/-- So does `fullcount`. -/
structure ThreadFds.Counted (fds : ThreadFds) : Prop extends fds.Tracked where
  fullcount : fds.fullcount = fds.full.card

theorem IsMaxfd.le {full : Finset Int} {maxfd fd : Int} (hmax : IsMaxfd full maxfd)
    (hfd : fd ∈ full) : fd ≤ maxfd := by
  rcases hmax with ⟨hempty, _⟩ | ⟨_, hle⟩
  · simp [hempty] at hfd
  · exact hle hfd

theorem IsMaxfd.neg_one_le {full : Finset Int} {maxfd : Int} (hmax : IsMaxfd full maxfd)
    (hnonneg : ∀ fd ∈ full, 0 ≤ fd) : -1 ≤ maxfd := by
  rcases hmax with ⟨_, hnone⟩ | ⟨hmem, _⟩
  · omega
  · have := hnonneg maxfd hmem
    omega

theorem IsMaxfd.union
    {a b : Finset Int} {m n : Int} (ha : IsMaxfd a m) (hb : IsMaxfd b n)
    (hnonneg : ∀ fd ∈ a ∪ b, 0 ≤ fd) : IsMaxfd (a ∪ b) (max n m) := by
  have hm := ha.neg_one_le fun fd hfd => hnonneg fd (Finset.mem_union_left b hfd)
  have hn := hb.neg_one_le fun fd hfd => hnonneg fd (Finset.mem_union_right a hfd)
  rcases ha with ⟨hempty, hnone⟩ | ha
  · rw [hempty, Finset.empty_union, max_eq_left (by omega)]
    exact hb
  · rcases hb with ⟨hempty, hnone⟩ | hb
    · rw [hempty, Finset.union_empty, max_eq_right (by omega)]
      exact Or.inr ha
    · right
      rw [Finset.coe_union, max_comm]
      exact ha.union hb

theorem ThreadFds.Tracked.bounded {part : ThreadFds} (hpart : part.Tracked) :
    part.Bounded := by
  intro fd hfd
  exact ⟨hpart.nonneg fd hfd, hpart.maxfd.le hfd⟩

theorem ThreadFds.Tracked.muxInto
    {part muxed : ThreadFds} (hpart : part.Tracked) (hmuxed : muxed.Counted)
    (hapart : Disjoint muxed.full part.full) : (part.muxInto muxed).Counted := by
  have hfull := muxInto_full hpart.bounded muxed
  have hnonneg : ∀ fd ∈ muxed.full ∪ part.full, 0 ≤ fd := by
    intro fd hfd
    rcases Finset.mem_union.mp hfd with hfd | hfd
    · exact hmuxed.nonneg fd hfd
    · exact hpart.nonneg fd hfd
  refine ⟨⟨?_, ?_⟩, ?_⟩
  · rw [hfull]
    exact hnonneg
  · rw [hfull, muxInto_maxfd]
    exact hmuxed.maxfd.union hpart.maxfd hnonneg
  · rw [hfull, muxInto_fullcount hpart.bounded, Finset.card_union_of_disjoint hapart,
      hmuxed.fullcount]
    push_cast
    rfl

/-- Each component knows its descriptors, and no two share one. -/
structure Components (s : Server) : Prop where
  pd : s.pd.Tracked
  ps : s.ps.Tracked
  fs : s.fs.Tracked
  pdPs : Disjoint s.pd.full s.ps.full
  pdFs : Disjoint s.pd.full s.fs.full
  psFs : Disjoint s.ps.full s.fs.full

/-- What the common set held before makes no difference. -/
theorem Components.muxFds {s : Server} (hcomponents : Components s) :
    (muxFds s).muxedfds.full = s.registered ∧ (muxFds s).muxedfds.Counted := by
  have hregistered : Registered s :=
    ⟨hcomponents.pd.bounded, hcomponents.ps.bounded, hcomponents.fs.bounded⟩
  refine ⟨muxFds_full hregistered, ?_⟩
  let start : ThreadFds := { s.muxedfds with maxfd := -1, fullcount := 0, full := ∅ }
  have hstart : start.Counted :=
    { nonneg := by simp [start], maxfd := Or.inl ⟨rfl, rfl⟩, fullcount := rfl }
  have hpdFull : (s.pd.muxInto start).full = s.pd.full := by
    rw [muxInto_full hcomponents.pd.bounded, Finset.empty_union]
  have hpd : (s.pd.muxInto start).Counted :=
    hcomponents.pd.muxInto hstart (Finset.disjoint_empty_left _)
  have hpsFull : (s.ps.muxInto (s.pd.muxInto start)).full = s.pd.full ∪ s.ps.full := by
    rw [muxInto_full hcomponents.ps.bounded, hpdFull]
  have hps : (s.ps.muxInto (s.pd.muxInto start)).Counted := by
    apply hcomponents.ps.muxInto hpd
    rw [hpdFull]
    exact hcomponents.pdPs
  apply hcomponents.fs.muxInto hps
  rw [hpsFull, Finset.disjoint_union_left]
  exact ⟨hcomponents.pdFs, hcomponents.psFs⟩

/-! ## The descriptors of the server -/

/-- The listening socket is registered. -/
def Server.Listens (s : Server) : Prop :=
  s.pd.full = {s.sList} ∧ s.pd.maxfd = s.sList

/-- The listening socket is registered, the queue and the feed agree with their
redundant data, and the components share no descriptor. -/
structure Muxable (s : Server) : Prop where
  listens : s.Listens
  queue : QueueInv s
  sList : 0 ≤ s.sList
  monitorfd : s.monitorfd ≠ -1 → 0 ≤ s.monitorfd
  pdPs : Disjoint s.pd.full s.ps.full
  pdFs : Disjoint s.pd.full s.fs.full
  psFs : Disjoint s.ps.full s.fs.full

/-- The descriptors on which the server waits. -/
def Server.waitsOn (s : Server) : Finset Int :=
  {s.sList} ∪ (s.pq.map Port.fd).toFinset ∪ if s.monitorfd = -1 then ∅ else {s.monitorfd}

theorem QueueInv.ps_tracked {s : Server} (hinv : QueueInv s) : s.ps.Tracked where
  nonneg := by
    intro fd hfd
    rw [hinv.full, List.mem_toFinset, List.mem_map] at hfd
    rcases hfd with ⟨p, hp, hpfd⟩
    rw [← hpfd]
    exact (hinv.inRange p hp).1
  maxfd := hinv.maxfd

theorem ThreadFds.tracked_singleton
    {fds : ThreadFds} {fd : Int} (hfd : 0 ≤ fd) (hfull : fds.full = {fd})
    (hmaxfd : fds.maxfd = fd) : fds.Tracked := by
  constructor
  · simpa [hfull] using hfd
  · right
    rw [hfull, hmaxfd, Finset.coe_singleton]
    exact isGreatest_singleton

theorem QueueInv.fs_tracked {s : Server} (hinv : QueueInv s)
    (hmonitorfd : s.monitorfd ≠ -1 → 0 ≤ s.monitorfd) : s.fs.Tracked := by
  by_cases hclosed : s.monitorfd = -1
  · rcases hinv.fifoClosed hclosed with ⟨_, hfull, hmaxfd⟩
    constructor
    · simp [hfull]
    · exact Or.inl ⟨hfull, hmaxfd⟩
  · rcases hinv.fifoOpen hclosed with ⟨_, hfull, hmaxfd⟩
    exact ThreadFds.tracked_singleton (hmonitorfd hclosed) hfull hmaxfd

theorem QueueInv.fs_full {s : Server} (hinv : QueueInv s) :
    s.fs.full = if s.monitorfd = -1 then ∅ else {s.monitorfd} := by
  split
  · exact (hinv.fifoClosed ‹_›).2.1
  · exact (hinv.fifoOpen ‹_›).2.1

theorem Muxable.components {s : Server} (h : Muxable s) : Components s where
  pd := ThreadFds.tracked_singleton h.sList h.listens.1 h.listens.2
  ps := h.queue.ps_tracked
  fs := h.queue.fs_tracked h.monitorfd
  pdPs := h.pdPs
  pdFs := h.pdFs
  psFs := h.psFs

theorem Muxable.registered {s : Server} (h : Muxable s) : s.registered = s.waitsOn := by
  rw [Server.registered, Server.waitsOn, h.listens.1, h.queue.full, h.queue.fs_full]

theorem Muxable.muxFds {s : Server} (h : Muxable s) :
    (muxFds s).muxedfds.full = s.waitsOn ∧
      IsGreatest (↑s.waitsOn : Set Int) (muxFds s).muxedfds.maxfd ∧
        (muxFds s).muxedfds.fullcount = s.waitsOn.card := by
  rcases h.components.muxFds with ⟨hfull, hmuxed⟩
  rw [h.registered] at hfull
  refine ⟨hfull, ?_, hfull ▸ hmuxed.fullcount⟩
  rcases hmuxed.maxfd with ⟨hempty, _⟩ | hgreatest
  · have hlistens : s.sList ∈ (∅ : Finset Int) := by
      rw [← hempty, hfull]
      simp [Server.waitsOn]
    simp at hlistens
  · rw [← hfull]
    exact hgreatest

/-! ## The reachable states -/

/-- Only `port_daemon_init` writes the fields of `port_daemon`. -/
def SameDaemon (s t : Server) : Prop :=
  t.pd.full = s.pd.full ∧ t.pd.maxfd = s.pd.maxfd ∧ t.sList = s.sList

theorem SameDaemon.listens {s t : Server} (h : SameDaemon s t) (hs : s.Listens) :
    t.Listens := by
  rcases h with ⟨hfull, hmaxfd, hsList⟩
  exact ⟨by rw [hfull, hsList, hs.1], by rw [hmaxfd, hsList, hs.2]⟩

theorem sameDaemon_closePort
    {s next : Server} {c : ℕ} {u : Unit} (hrun : (closePort c).run s = .ok (u, next)) :
    SameDaemon s next := by
  rcases closePort_cases hrun with ⟨p, _, ⟨_, hnext⟩ | ⟨found, _, _, hnext⟩⟩
  · rw [hnext]
    exact ⟨rfl, rfl, rfl⟩
  · rw [hnext]
    exact ⟨rfl, rfl, rfl⟩

theorem sameDaemon_monitorOpen
    {env : Env} {s next : Server} {u : Unit} (hrun : (monitorOpen env).run s = .ok (u, next)) :
    SameDaemon s next := by
  rcases monitorOpen_cases hrun with ⟨_, hnext⟩ | ⟨_, path, hnext | ⟨fd, result, _, _, hnext⟩⟩
  · rw [hnext]
    exact ⟨rfl, rfl, rfl⟩
  · rw [hnext.1]
    exact ⟨rfl, rfl, rfl⟩
  · rw [hnext]
    exact ⟨rfl, rfl, rfl⟩

theorem Command.sameDaemon
    {env : Env} {line : List Byte} {c : ℕ} {p : Port} {s next : Server} {closed : Bool}
    (hcommand : Command env line c p s closed next) : SameDaemon s next := by
  cases hcommand with
  | ignored => exact ⟨rfl, rfl, rfl⟩
  | monitorOff _ => exact ⟨rfl, rfl, rfl⟩
  | monitorOn _ _ => exact ⟨rfl, rfl, rfl⟩
  | monitorOpen _ _ hopen =>
      have hopened : SameDaemon (s.monitorOn c) next := sameDaemon_monitorOpen hopen
      exact hopened
  | close hclose => exact sameDaemon_closePort hclose
  | control _ _ => exact ⟨rfl, rfl, rfl⟩
  | refuse _ _ => exact ⟨rfl, rfl, rfl⟩

theorem ServeEffect.sameDaemon {env : Env} {s next : Server}
    (heffect : ServeEffect env s next) : SameDaemon s next := by
  cases heffect with
  | hangup chunk _ hclose =>
      have hclosed : SameDaemon (s.log _) next := sameDaemon_closePort hclose
      exact hclosed
  | command _ hcommand => exact hcommand.sameDaemon

theorem RelayEffect.sameDaemon {s next : Server} (heffect : RelayEffect s next) :
    SameDaemon s next := by
  cases heffect with
  | drained => exact ⟨rfl, rfl, rfl⟩
  | relayed => exact ⟨rfl, rfl, rfl⟩
  | close hclose => exact sameDaemon_closePort hclose
  | monitorClose => exact ⟨rfl, rfl, rfl⟩

theorem Server.Listens.serverStep
    {daemon : Env → Server → Prop} {relayed : Server → Server → Prop} {s next : Server}
    (hs : s.Listens) (hstep : ServerStep daemon relayed s next) : next.Listens := by
  cases hstep with
  | doSelect hrun =>
      have hreselected := doSelect_cases hrun
      have hsList : next.sList = s.sList := by rw [hreselected.server]
      rw [Server.Listens, hreselected.pd, hsList]
      exact hs
  | portDaemon haccepts _ hrun =>
      rcases portDaemon_cases haccepts hrun with ⟨p, events, kernel, _, _, _, _, _, hadmitted⟩
      cases hadmitted with
      | queued => exact hs
      | refused => exact hs
  | portServer ready count hrun =>
      have hselected : Server.Listens
          { s with ps := { s.ps with sel := ready, selcount := count } } := hs
      exact invariant_of_effects (fun _ _ heffect ha => heffect.sameDaemon.listens ha)
        (portServer_effects hrun) hselected
  | fifoServer hrun =>
      exact invariant_of_effects (fun _ _ heffect ha => heffect.sameDaemon.listens ha)
        (fifoServer_effects hrun) hs
  | rereadConf hrun =>
      rcases rereadConf_cases hrun with ⟨aq, events, _, hnext⟩
      rw [hnext]
      exact hs

theorem Reachable.listens {s : Server} (hreachable : Reachable s) : s.Listens := by
  rcases hreachable with ⟨env, first, hstart, hsteps⟩
  have hstep : ∀ a b, ServerStep (fun _ _ => True) (fun _ _ => True) a b →
      a.Listens → b.Listens := by
    intro a b hab ha
    exact ha.serverStep hab
  exact invariant_of_effects hstep hsteps (start_pd hstart)

/-- The invariants keep the three components apart. -/
theorem ServerInv.muxable {s : Server} (hinv : ServerInv s) (hlistens : s.Listens) :
    Muxable s := by
  have hnonneg : ∀ fd ∈ s.held, 0 ≤ fd := fun fd hfd =>
    hinv.descriptors.nonneg fd (hinv.descriptors.isOpen fd hfd)
  have hdistinct := hinv.descriptors.distinct
  rw [Server.held, List.nodup_cons, List.append_assoc] at hdistinct
  have hmonitor : s.fs.full = (heldIn s.monitorfd).toFinset := by
    rw [hinv.queue.fs_full, heldIn]
    split
    · rfl
    · rfl
  have hapart := (List.nodup_append'.mp hdistinct.2).2.1
  rw [List.nodup_append'] at hapart
  constructor
  · exact hlistens
  · exact hinv.queue
  · exact hnonneg s.sList List.mem_cons_self
  · intro hopen
    apply hnonneg
    simp [Server.held, heldIn, hopen]
  · rw [hlistens.1, Finset.disjoint_singleton_left, hinv.queue.full, List.mem_toFinset]
    intro hmem
    exact hdistinct.1 (List.mem_append_right _ (List.mem_append_right _ hmem))
  · rw [hlistens.1, Finset.disjoint_singleton_left, hmonitor, List.mem_toFinset]
    intro hmem
    exact hdistinct.1 (List.mem_append_right _ (List.mem_append_left _ hmem))
  · rw [hinv.queue.full, hmonitor, disjoint_comm, List.disjoint_toFinset_iff_disjoint]
    exact hapart.2.2

/-- Every reachable server listens, and its components are apart. `mux_fds` then
registers all descriptors of the server, whatever the common set has held. -/
theorem muxFds_registers :
    (∀ s, Reachable s → Muxable s) ∧
      ∀ s, Muxable s → ∀ muxed : ThreadFds,
        let merged := (muxFds { s with muxedfds := muxed }).muxedfds
        merged.full = s.waitsOn ∧ IsGreatest (↑s.waitsOn : Set Int) merged.maxfd ∧
          merged.fullcount = s.waitsOn.card := by
  constructor
  · intro s hreachable
    exact hreachable.serverInv.muxable hreachable.listens
  · intro s hmuxable muxed
    have hreplaced : Muxable { s with muxedfds := muxed } :=
      ⟨hmuxable.listens, { hmuxable.queue with }, hmuxable.sList, hmuxable.monitorfd,
        hmuxable.pdPs, hmuxable.pdFs, hmuxable.psFs⟩
    exact hreplaced.muxFds

/-- A client has asked for the feed, and the set holds what was ready. -/
theorem muxFds_registers_served :
    let s : Server := .served (.asking fun s => some (nextFd s))
    let merged := (muxFds { s with muxedfds := { ThreadFds.empty with full := {9} } }).muxedfds
    Muxable s ∧ merged.full = {1, 3, 4} ∧ merged.maxfd = 4 ∧ merged.fullcount = 3 := by
  intro s merged
  let started := finalState ((start .obliging).run .blank)
  have hstart : (start .obliging).run .blank = .ok ((), started) := by decide +kernel
  have haccepts : Accepts .obliging started :=
    ⟨nextFd started, _, rfl, nextFd_fresh started⟩
  have hjoined : (portDaemon .obliging).run started = .ok ((), .joined) := by
    decide +kernel
  have hserved : (portServer (.asking fun s => some (nextFd s)) 2).run
      { Server.joined with ps := { Server.joined.ps with sel := {3}, selcount := 1 } } =
        .ok ((), s) := by
    decide +kernel
  have hreachable : Reachable s :=
    ⟨.obliging, started, hstart,
      .tail (.single (.portDaemon haccepts trivial hjoined)) (.portServer {3} 1 hserved)⟩
  have hmuxable := muxFds_registers.1 s hreachable
  have hwaitsOn : s.waitsOn = {1, 3, 4} := by decide +kernel
  rcases muxFds_registers.2 s hmuxable { ThreadFds.empty with full := {9} } with
    ⟨hfull, hmaxfd, hcount⟩
  rw [hwaitsOn] at hfull hmaxfd hcount
  refine ⟨hmuxable, hfull, ?_, hcount⟩
  have hfour : IsGreatest (↑({1, 3, 4} : Finset Int) : Set Int) 4 := by
    constructor
    · decide
    · intro fd hfd
      simp at hfd
      omega
  exact hmaxfd.unique hfour

end DialdTop
