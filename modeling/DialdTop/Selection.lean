import DialdTop.ServerState
import Mathlib.Data.Finset.Card

/-!
# Multiplexing the descriptor sets

The three components keep their descriptors apart.  Before each `select` the
sets are merged, and its answer is distributed over the components again.
-/

namespace DialdTop

open Program

def adjustMaxfd (fds : ThreadFds) (currfd : Int) : Int :=
  if fds.maxfd ≠ currfd then fds.maxfd
  else
    (List.range (fds.maxfd + 1).toNat).foldl
      (fun (max : Int) (i : ℕ) => if (i : Int) ∈ fds.full then (i : Int) else max) (-1)

/-- One of the three loops of `mux_fds`. -/
def ThreadFds.muxInto (part muxed : ThreadFds) : ThreadFds :=
  let merged :=
    (List.range (part.maxfd + 1).toNat).foldl
      (fun (m : ThreadFds) (i : ℕ) =>
        if (i : Int) ∈ part.full then
          { m with full := insert (i : Int) m.full, fullcount := m.fullcount + 1 }
        else m) muxed
  { merged with
    maxfd := if part.maxfd > merged.maxfd then part.maxfd else merged.maxfd }

def muxFds (s : Server) : Server :=
  let start := { s.muxedfds with maxfd := -1, fullcount := 0, full := ∅ }
  { s with muxedfds := s.fs.muxInto (s.ps.muxInto (s.pd.muxInto start)) }

/-- `FD_SET(i, &part->sel)` when `i` belongs to the component. -/
def ThreadFds.select (part : ThreadFds) (i : Int) : ThreadFds :=
  if i ∈ part.full then
    { part with sel := insert i part.sel, selcount := part.selcount + 1 }
  else part

def ThreadFds.deselect (part : ThreadFds) : ThreadFds :=
  { part with sel := ∅, selcount := 0 }

/-- `demux_fds`, where `count` is what its automatic variable starts with. -/
def demuxFds (count : Int) (s : Server) : Server :=
  let start : Int × Server :=
    (count, { s with pd := s.pd.deselect, ps := s.ps.deselect, fs := s.fs.deselect })
  let visit := fun (acc : Int × Server) (i : ℕ) =>
    if acc.1 < s.muxedfds.selcount ∧ (i : Int) ∈ s.muxedfds.full then
      (acc.1 + 1,
        { acc.2 with
          pd := acc.2.pd.select i
          ps := acc.2.ps.select i
          fs := acc.2.fs.select i })
    else acc
  ((List.range (s.muxedfds.maxfd + 1).toNat).foldl visit start).2

/-- `select` leaves the ready part of the set, or fails and leaves it all. -/
def selectMuxed (env : Env) (s : Server) : Server :=
  match env.select s with
  | some ready =>
      let full := s.muxedfds.full ∩ ready
      { s with muxedfds := { s.muxedfds with full := full, selcount := full.card } }
  | none => { s with muxedfds := { s.muxedfds with selcount := -1 } }

def doSelect (env : Env) : Srv Unit := do
  update muxFds
  update (selectMuxed env)
  update fun s => demuxFds (env.count s) s

end DialdTop
