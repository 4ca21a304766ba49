import DialdTop.Operations

/-!
# Distribution of the ready descriptors

The loop of `demux_fds` ends as soon as its counter has reached the number of
ready descriptors.  It thereby visits a leading part of them, and how long this
part is depends on the value with which the counter starts.
-/

namespace DialdTop

open Program

/-! ## The union of the registered descriptors -/

/-- The descriptors of a component lie between 0 and its `maxfd`. -/
def ThreadFds.Bounded (part : ThreadFds) : Prop :=
  ∀ fd ∈ part.full, 0 ≤ fd ∧ fd ≤ part.maxfd

structure Registered (s : Server) : Prop where
  pd : s.pd.Bounded
  ps : s.ps.Bounded
  fs : s.fs.Bounded

def Server.registered (s : Server) : Finset Int :=
  s.pd.full ∪ s.ps.full ∪ s.fs.full

/-- The loop of `mux_fds` enters the descriptors below its bound. -/
theorem mux_loop (part muxed : ThreadFds) (bound : ℕ) :
    let merged := (List.range bound).foldl
      (fun (m : ThreadFds) (i : ℕ) =>
        if (i : Int) ∈ part.full then
          { m with full := insert (i : Int) m.full, fullcount := m.fullcount + 1 }
        else m) muxed
    let entered := part.full.filter fun fd : Int => 0 ≤ fd ∧ fd < bound
    merged.full = muxed.full ∪ entered ∧ merged.maxfd = muxed.maxfd ∧
      merged.fullcount = muxed.fullcount + entered.card := by
  intro merged entered
  induction bound with
  | zero =>
      have hnone : entered = ∅ := by
        apply Finset.filter_eq_empty_iff.mpr
        intro fd _ hrange
        omega
      simp [merged, hnone]
  | succ bound ih =>
      simp only [merged, List.range_succ, List.foldl_append, List.foldl_cons, List.foldl_nil]
      by_cases hmem : (bound : Int) ∈ part.full
      · have hentered := filter_below_succ_of_mem hmem
        have hnew : (bound : Int) ∉
            part.full.filter fun fd => 0 ≤ fd ∧ fd < (bound : Int) := by simp
        rw [if_pos hmem]
        simp only [entered, hentered, ih.1, ih.2.1, ih.2.2, Finset.union_insert,
          Finset.card_insert_of_notMem hnew, true_and]
        push_cast
        omega
      · rw [if_neg hmem]
        simp only [entered, filter_below_succ_of_notMem hmem]
        exact ih

/-- The bound of the loop leaves out no member of the component. -/
theorem ThreadFds.Bounded.entered {part : ThreadFds} (hpart : part.Bounded) :
    (part.full.filter fun fd => 0 ≤ fd ∧ fd < ((part.maxfd + 1).toNat : Int)) = part.full := by
  rw [Finset.filter_eq_self]
  intro fd hfd
  have hbounds := hpart fd hfd
  omega

theorem muxInto_full {part : ThreadFds} (hpart : part.Bounded) (muxed : ThreadFds) :
    (part.muxInto muxed).full = muxed.full ∪ part.full := by
  have hmerged := (mux_loop part muxed (part.maxfd + 1).toNat).1
  rw [hpart.entered] at hmerged
  exact hmerged

theorem muxInto_fullcount {part : ThreadFds} (hpart : part.Bounded) (muxed : ThreadFds) :
    (part.muxInto muxed).fullcount = muxed.fullcount + part.full.card := by
  have hmerged := (mux_loop part muxed (part.maxfd + 1).toNat).2.2
  rw [hpart.entered] at hmerged
  exact hmerged

theorem muxInto_maxfd (part muxed : ThreadFds) :
    (part.muxInto muxed).maxfd = max part.maxfd muxed.maxfd := by
  have hkept := (mux_loop part muxed (part.maxfd + 1).toNat).2.1
  simp only [ThreadFds.muxInto]
  rw [hkept]
  split
  · exact (max_eq_left (by omega)).symm
  · exact (max_eq_right (by omega)).symm

theorem muxFds_full {s : Server} (hreg : Registered s) :
    (muxFds s).muxedfds.full = s.registered := by
  simp only [muxFds]
  rw [muxInto_full hreg.fs, muxInto_full hreg.ps, muxInto_full hreg.pd, Finset.empty_union]
  rfl

/-- The loop of `demux_fds` reaches every registered descriptor. -/
theorem registered_le_maxfd {s : Server} (hreg : Registered s) {fd : Int}
    (hfd : fd ∈ s.registered) : 0 ≤ fd ∧ fd ≤ (muxFds s).muxedfds.maxfd := by
  let start : ThreadFds := { s.muxedfds with maxfd := -1, fullcount := 0, full := ∅ }
  have hpd := muxInto_maxfd s.pd start
  have hps := muxInto_maxfd s.ps (s.pd.muxInto start)
  have hfs := muxInto_maxfd s.fs (s.ps.muxInto (s.pd.muxInto start))
  have hmaxfd : (muxFds s).muxedfds.maxfd =
      (s.fs.muxInto (s.ps.muxInto (s.pd.muxInto start))).maxfd := rfl
  rw [hmaxfd]
  simp only [Server.registered, Finset.mem_union] at hfd
  rcases hfd with (hfd | hfd) | hfd
  · have hbounds := hreg.pd fd hfd
    omega
  · have hbounds := hreg.ps fd hfd
    omega
  · have hbounds := hreg.fs fd hfd
    omega

/-! ## The descriptors which the loop visits -/

def ThreadFds.selectAll (part : ThreadFds) (visited : List ℕ) : ThreadFds :=
  visited.foldl (fun p i => p.select i) part

def Server.selectAll (s : Server) (visited : List ℕ) : Server :=
  { s with
    pd := s.pd.selectAll visited
    ps := s.ps.selectAll visited
    fs := s.fs.selectAll visited }

/-- The counter lets the loop visit a leading part of the ready descriptors. -/
theorem demux_loop (full : Finset Int) (selcount : Int) (candidates : List ℕ) (count : Int)
    (s : Server) :
    (candidates.foldl
      (fun (acc : Int × Server) (i : ℕ) =>
        if acc.1 < selcount ∧ (i : Int) ∈ full then
          (acc.1 + 1,
            { acc.2 with
              pd := acc.2.pd.select i
              ps := acc.2.ps.select i
              fs := acc.2.fs.select i })
        else acc) (count, s)).2 =
      s.selectAll ((candidates.filter fun i : ℕ => (i : Int) ∈ full).take
        (selcount - count).toNat) := by
  induction candidates generalizing count s with
  | nil => simp [Server.selectAll, ThreadFds.selectAll]
  | cons i candidates ih =>
      rw [List.foldl_cons]
      by_cases hmem : (i : Int) ∈ full
      · by_cases hcount : count < selcount
        · have hleft : (selcount - count).toNat = (selcount - (count + 1)).toNat + 1 := by omega
          simp only [hcount, hmem, and_self, if_true]
          rw [ih, List.filter_cons_of_pos (by simpa using hmem), hleft, List.take_succ_cons]
          rfl
        · have hleft : (selcount - count).toNat = 0 := by omega
          simp only [hcount, false_and, if_false]
          rw [ih, hleft, List.take_zero, List.take_zero]
      · simp only [hmem, and_false, if_false]
        rw [ih, List.filter_cons_of_neg (by simpa using hmem)]

/-- The descriptors a list of positions stands for. -/
def descriptors (visited : List ℕ) : Finset Int :=
  (visited.map fun i : ℕ => (i : Int)).toFinset

theorem ThreadFds.selectAll_eq (part : ThreadFds) (visited : List ℕ) :
    part.selectAll visited =
      { part with
        sel := part.sel ∪ (descriptors visited ∩ part.full)
        selcount := part.selcount + visited.countP fun i : ℕ => (i : Int) ∈ part.full } := by
  induction visited generalizing part with
  | nil => simp [ThreadFds.selectAll, descriptors]
  | cons i visited ih =>
      have hstep : part.selectAll (i :: visited) = (part.select i).selectAll visited := rfl
      rw [hstep, ih]
      by_cases hmem : (i : Int) ∈ part.full
      · have hsel : part.select i =
            { part with sel := insert (i : Int) part.sel, selcount := part.selcount + 1 } :=
          if_pos hmem
        rw [hsel, List.countP_cons_of_pos (by simpa using hmem)]
        have hsets : insert (i : Int) part.sel ∪ descriptors visited ∩ part.full =
            part.sel ∪ descriptors (i :: visited) ∩ part.full := by
          ext fd
          simp only [descriptors, Finset.mem_union, Finset.mem_insert, Finset.mem_inter,
            List.map_cons, List.toFinset_cons]
          by_cases hfd : fd = i
          · subst fd
            simp [hmem]
          · simp [hfd]
        have hcounts : part.selcount + 1 + (visited.countP fun i : ℕ => (i : Int) ∈ part.full : ℕ) =
            part.selcount + ((visited.countP fun i : ℕ => (i : Int) ∈ part.full) + 1 : ℕ) := by
          push_cast
          omega
        simp only [hsets, hcounts]
      · have hsel : part.select i = part := if_neg hmem
        rw [hsel, List.countP_cons_of_neg (by simpa using hmem)]
        have hsets : descriptors (i :: visited) ∩ part.full =
            descriptors visited ∩ part.full := by
          ext fd
          simp only [descriptors, Finset.mem_inter, List.map_cons, List.toFinset_cons,
            Finset.mem_insert]
          by_cases hfd : fd = i
          · subst fd
            simp [hmem]
          · simp [hfd]
        rw [hsets]

theorem mem_descriptors {visited : List ℕ} {fd : Int} :
    fd ∈ descriptors visited ↔ ∃ i ∈ visited, (i : Int) = fd := by
  simp [descriptors, eq_comm]

theorem card_descriptors {visited : List ℕ} (hnodup : visited.Nodup) (full : Finset Int) :
    (descriptors visited ∩ full).card = visited.countP fun i : ℕ => (i : Int) ∈ full := by
  have hinj : Function.Injective fun i : ℕ => (i : Int) := fun a b h => Int.ofNat.inj h
  have hfilter : descriptors visited ∩ full =
      ((visited.filter fun i : ℕ => (i : Int) ∈ full).map fun i : ℕ => (i : Int)).toFinset := by
    ext fd
    simp only [Finset.mem_inter, mem_descriptors, List.mem_toFinset, List.mem_map,
      List.mem_filter, decide_eq_true_eq]
    constructor
    · intro h
      rcases h with ⟨⟨i, hi, hfd⟩, hfull⟩
      exact ⟨i, ⟨hi, hfd ▸ hfull⟩, hfd⟩
    · intro h
      rcases h with ⟨i, ⟨hi, hfull⟩, hfd⟩
      exact ⟨⟨i, hi, hfd⟩, hfd ▸ hfull⟩
  rw [hfilter, List.toFinset_card_of_nodup ((hnodup.filter _).map hinj), List.length_map,
    List.countP_eq_length_filter]

/-! ## The distribution -/

/-- The component has got its share of the ready descriptors. -/
def ThreadFds.Receives (ready : Finset Int) (part : ThreadFds) : Prop :=
  part.sel = ready ∩ part.full ∧ part.selcount = (ready ∩ part.full).card

structure Demultiplexed (ready : Finset Int) (s : Server) : Prop where
  pd : s.pd.Receives ready
  ps : s.ps.Receives ready
  fs : s.fs.Receives ready

theorem receives_selectAll {part : ThreadFds} {visited : List ℕ} (hnodup : visited.Nodup)
    (ready : Finset Int) :
    (part.deselect.selectAll visited).Receives ready ↔
      descriptors visited ∩ part.full = ready ∩ part.full := by
  have hselected := ThreadFds.selectAll_eq part.deselect visited
  have hsel : (part.deselect.selectAll visited).sel = descriptors visited ∩ part.full := by
    rw [hselected]
    exact Finset.empty_union _
  have hcount : (part.deselect.selectAll visited).selcount =
      (descriptors visited ∩ part.full).card := by
    rw [hselected, card_descriptors hnodup]
    exact Int.zero_add _
  have hfull : (part.deselect.selectAll visited).full = part.full := by
    rw [hselected]
    rfl
  rw [ThreadFds.Receives, hsel, hcount, hfull]
  constructor
  · intro h
    exact h.1
  · intro h
    exact ⟨h, by rw [h]⟩

/-- The descriptors visited in `demux_fds` are distributed. -/
theorem demultiplexed_selectAll_iff
    {s : Server} {visited : List ℕ} (hnodup : visited.Nodup) {ready : Finset Int}
    (hvisited : descriptors visited ⊆ s.registered) (hready : ready ⊆ s.registered) :
    Demultiplexed ready
        (Server.selectAll
          { s with pd := s.pd.deselect, ps := s.ps.deselect, fs := s.fs.deselect } visited) ↔
      descriptors visited = ready := by
  constructor
  · intro h
    have hpd := (receives_selectAll hnodup ready).mp h.pd
    have hps := (receives_selectAll hnodup ready).mp h.ps
    have hfs := (receives_selectAll hnodup ready).mp h.fs
    calc
      descriptors visited = descriptors visited ∩ s.registered :=
        (Finset.inter_eq_left.mpr hvisited).symm
      _ = ready ∩ s.registered := by
        simp only [Server.registered, Finset.inter_union_distrib_left, hpd, hps, hfs]
      _ = ready := Finset.inter_eq_left.mpr hready
  · intro h
    constructor
    · exact (receives_selectAll hnodup ready).mpr (by rw [h])
    · exact (receives_selectAll hnodup ready).mpr (by rw [h])
    · exact (receives_selectAll hnodup ready).mpr (by rw [h])

/-- What `select` reports as ready. -/
def readyFds (env : Env) (s : Server) : Finset Int :=
  match env.select (muxFds s) with
  | some ready => s.registered ∩ ready
  | none => ∅

/-- Not too great a start of the counter when descriptors are ready, and not too
small a one when `select` has failed. -/
def CountStarts (env : Env) (s : Server) : Prop :=
  let count := env.count (selectMuxed env (muxFds s))
  match env.select (muxFds s) with
  | some ready => count ≤ 0 ∨ s.registered ∩ ready = ∅
  | none => -1 ≤ count ∨ s.registered = ∅

/-- The registered descriptors in `full`, in the order of the loop. -/
def candidates (full : Finset Int) (maxfd : Int) : List ℕ :=
  (List.range (maxfd + 1).toNat).filter fun i : ℕ => (i : Int) ∈ full

theorem descriptors_candidates {full : Finset Int} {maxfd : Int}
    (hfull : ∀ fd ∈ full, 0 ≤ fd ∧ fd ≤ maxfd) :
    descriptors (candidates full maxfd) = full := by
  ext fd
  simp only [mem_descriptors, candidates, List.mem_filter, List.mem_range, decide_eq_true_eq]
  constructor
  · intro h
    rcases h with ⟨i, ⟨_, hi⟩, hfd⟩
    exact hfd ▸ hi
  · intro hfd
    have hbounds := hfull fd hfd
    have hcast : ((fd.toNat : ℕ) : Int) = fd := by omega
    exact ⟨fd.toNat, ⟨by omega, by rw [hcast]; exact hfd⟩, hcast⟩

theorem nodup_candidates (full : Finset Int) (maxfd : Int) :
    (candidates full maxfd).Nodup :=
  List.nodup_range.filter _

theorem length_eq_card_descriptors {visited : List ℕ} (hnodup : visited.Nodup) :
    visited.length = (descriptors visited).card := by
  have hinj : Function.Injective fun i : ℕ => (i : Int) := fun a b h => Int.ofNat.inj h
  rw [descriptors, List.toFinset_card_of_nodup (hnodup.map hinj), List.length_map]

theorem descriptors_take_eq_iff {visited : List ℕ} (hnodup : visited.Nodup) (k : ℕ) :
    descriptors (visited.take k) = descriptors visited ↔ visited.length ≤ k := by
  constructor
  · intro h
    have hlength := length_eq_card_descriptors (hnodup.sublist (List.take_sublist k visited))
    rw [h, ← length_eq_card_descriptors hnodup, List.length_take] at hlength
    omega
  · intro h
    rw [List.take_of_length_le h]

theorem descriptors_take_eq_empty_iff {visited : List ℕ} (k : ℕ) :
    descriptors (visited.take k) = ∅ ↔ k = 0 ∨ visited = [] := by
  simp [descriptors]

theorem selectMuxed_frame (env : Env) (s : Server) :
    (selectMuxed env s).pd = s.pd ∧ (selectMuxed env s).ps = s.ps ∧
      (selectMuxed env s).fs = s.fs ∧
        (selectMuxed env s).muxedfds.maxfd = s.muxedfds.maxfd := by
  unfold selectMuxed
  split
  · exact ⟨rfl, rfl, rfl, rfl⟩
  · exact ⟨rfl, rfl, rfl, rfl⟩

theorem demuxFds_eq_selectAll (count : Int) (s : Server) :
    demuxFds count s =
      Server.selectAll { s with pd := s.pd.deselect, ps := s.ps.deselect, fs := s.fs.deselect }
        ((candidates s.muxedfds.full s.muxedfds.maxfd).take
          (s.muxedfds.selcount - count).toNat) :=
  demux_loop s.muxedfds.full s.muxedfds.selcount _ count _

/-- `demux_fds` is right when the leading part it visits is what is ready. -/
theorem demultiplexed_demuxFds_iff
    {s : Server} (hfull : s.muxedfds.full ⊆ s.registered)
    (hbounds : ∀ fd ∈ s.registered, 0 ≤ fd ∧ fd ≤ s.muxedfds.maxfd) (count : Int)
    {ready : Finset Int} (hready : ready ⊆ s.registered) :
    Demultiplexed ready (demuxFds count s) ↔
      descriptors ((candidates s.muxedfds.full s.muxedfds.maxfd).take
        (s.muxedfds.selcount - count).toNat) = ready := by
  let listed := candidates s.muxedfds.full s.muxedfds.maxfd
  have hlisted : descriptors listed = s.muxedfds.full :=
    descriptors_candidates fun fd hfd => hbounds fd (hfull hfd)
  rw [demuxFds_eq_selectAll]
  apply demultiplexed_selectAll_iff ((nodup_candidates _ _).sublist (List.take_sublist _ _))
  · intro fd hfd
    apply hfull
    rw [← hlisted]
    rw [mem_descriptors] at hfd ⊢
    rcases hfd with ⟨i, hi, heq⟩
    exact ⟨i, List.mem_of_mem_take hi, heq⟩
  · exact hready

/-- `do_select` distributes the ready descriptors if and only if the variable
`count` starts with a suitable value. -/
theorem demultiplexed_iff (env : Env) (s : Server) (hreg : Registered s) :
    ∃ next, (doSelect env).run s = .ok ((), next) ∧
      (Demultiplexed (readyFds env s) next ↔ CountStarts env s) := by
  let selected := selectMuxed env (muxFds s)
  rcases selectMuxed_frame env (muxFds s) with ⟨hpd, hps, hfs, hmaxfd⟩
  have hregistered : selected.registered = s.registered := by
    simp only [Server.registered, selected, hpd, hps, hfs]
    rfl
  have hfull : selected.muxedfds.full ⊆ selected.registered := by
    rw [hregistered, ← muxFds_full hreg]
    simp only [selected, selectMuxed]
    split
    · exact Finset.inter_subset_left
    · exact Finset.Subset.refl _
  have hbounds : ∀ fd ∈ selected.registered, 0 ≤ fd ∧ fd ≤ selected.muxedfds.maxfd := by
    intro fd hfd
    rw [hregistered] at hfd
    rw [hmaxfd]
    exact registered_le_maxfd hreg hfd
  have hready : readyFds env s ⊆ selected.registered := by
    rw [hregistered]
    unfold readyFds
    split
    · exact Finset.inter_subset_left
    · exact Finset.empty_subset _
  refine ⟨demuxFds (env.count selected) selected, by simp [doSelect, selected], ?_⟩
  rw [demultiplexed_demuxFds_iff hfull hbounds _ hready]
  let listed := candidates selected.muxedfds.full selected.muxedfds.maxfd
  have hnodup : listed.Nodup := nodup_candidates _ _
  have hlisted : descriptors listed = selected.muxedfds.full :=
    descriptors_candidates fun fd hfd => hbounds fd (hfull hfd)
  have hlength : listed.length = selected.muxedfds.full.card := by
    rw [length_eq_card_descriptors hnodup, hlisted]
  cases hanswer : env.select (muxFds s) with
  | some ready =>
      have hmuxed : selected.muxedfds.full = s.registered ∩ ready ∧
          selected.muxedfds.selcount = (s.registered ∩ ready).card := by
        simp only [selected, selectMuxed, hanswer, muxFds_full hreg, and_self]
      have hall : ∀ k, descriptors (listed.take k) = s.registered ∩ ready ↔
          listed.length ≤ k := by
        intro k
        rw [← hmuxed.1, ← hlisted]
        exact descriptors_take_eq_iff hnodup k
      have hempty : s.registered ∩ ready = ∅ ↔ listed.length = 0 := by
        rw [hlength, hmuxed.1, Finset.card_eq_zero]
      have hselcount : selected.muxedfds.selcount = listed.length := by
        rw [hmuxed.2, hlength, hmuxed.1]
      simp only [readyFds, CountStarts, hanswer]
      rw [hall, hempty, hselcount]
      change _ ↔ env.count selected ≤ 0 ∨ listed.length = 0
      omega
  | none =>
      have hmuxed : selected.muxedfds.full = s.registered ∧
          selected.muxedfds.selcount = -1 := by
        simp only [selected, selectMuxed, hanswer, muxFds_full hreg, and_self]
      have hempty : s.registered = ∅ ↔ listed = [] := by
        rw [← List.length_eq_zero_iff, hlength, hmuxed.1, Finset.card_eq_zero]
      simp only [readyFds, CountStarts, hanswer]
      rw [descriptors_take_eq_empty_iff, hmuxed.2, hempty]
      have hcount : (-1 - env.count selected).toNat = 0 ↔ -1 ≤ env.count selected := by omega
      rw [hcount]

/-! ## One ready descriptor -/

/-- The listening socket is registered, and a connection is waiting. -/
def listening : Server :=
  { Server.blank with
    pd := { fullcount := 1, full := {3}, maxfd := 3, selcount := 0, sel := ∅ } }

theorem listening_registered : Registered listening where
  pd := by
    intro fd hfd
    rw [listening, Finset.mem_singleton] at hfd
    subst fd
    decide
  ps := by
    intro fd hfd
    cases hfd
  fs := by
    intro fd hfd
    cases hfd

/-- The stack holds this value where `count` lies. -/
def Env.knocking (count : Int) : Env :=
  { Env.obliging with
    select := fun _ => some {3}
    count := fun _ => count }

/-- Two descriptors in each component. -/
def paired : Server :=
  { Server.blank with
    pd := { fullcount := 2, full := {3, 4}, maxfd := 4, selcount := 0, sel := ∅ }
    ps := { fullcount := 2, full := {5, 6}, maxfd := 6, selcount := 0, sel := ∅ }
    fs := { fullcount := 2, full := {7, 8}, maxfd := 8, selcount := 0, sel := ∅ } }

theorem paired_registered : Registered paired where
  pd := by
    unfold ThreadFds.Bounded
    decide
  ps := by
    unfold ThreadFds.Bounded
    decide
  fs := by
    unfold ThreadFds.Bounded
    decide

/-- One of the two is ready in each component. -/
theorem demultiplexed_iff_paired :
    let env : Env := { Env.knocking 0 with select := fun _ => some {3, 6, 8} }
    ∃ next, (doSelect env).run paired = .ok ((), next) ∧ Demultiplexed {3, 6, 8} next ∧
      next.pd.sel = {3} ∧ next.ps.sel = {6} ∧ next.fs.sel = {8} := by
  intro env
  rcases demultiplexed_iff env paired paired_registered with ⟨next, hrun, hiff⟩
  have hready : readyFds env paired = {3, 6, 8} := by decide
  rw [hready] at hiff
  have hdemuxed := hiff.mpr (Or.inl (by decide))
  have hfull : next.pd.full = {3, 4} ∧ next.ps.full = {5, 6} ∧ next.fs.full = {7, 8} := by
    have hnext : next = finalState ((doSelect env).run paired) := by
      rw [hrun]
      rfl
    rw [hnext]
    decide
  refine ⟨next, hrun, hdemuxed, ?_, ?_, ?_⟩
  · rw [hdemuxed.pd.1, hfull.1]
    decide
  · rw [hdemuxed.ps.1, hfull.2.1]
    decide
  · rw [hdemuxed.fs.1, hfull.2.2]
    decide

/-- The waiting connection is overlooked when the stack holds a one. -/
theorem exists_starved_descriptor :
    ∃ env s next, Registered s ∧ Disjoint s.pd.full s.ps.full ∧
      Disjoint s.pd.full s.fs.full ∧ Disjoint s.ps.full s.fs.full ∧
      (doSelect env).run s = .ok ((), next) ∧ ¬ Demultiplexed (readyFds env s) next := by
  let selected := selectMuxed (.knocking 1) (muxFds listening)
  refine ⟨.knocking 1, listening, demuxFds 1 selected, listening_registered, by decide,
    by decide, by decide, by simp [doSelect, selected, Env.knocking], ?_⟩
  intro hdemuxed
  have hcount := hdemuxed.pd.2
  revert hcount
  decide

end DialdTop
