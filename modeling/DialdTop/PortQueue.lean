import DialdTop.Selection

/-!
# The queue of connected ports
-/

namespace DialdTop

open Program

/-- A port is pushed at the front of the queue; the call fails when there is
no memory for its node. -/
def portEnqueue (env : Env) (p : Port) : Srv Bool := do
  if !(← (look env.malloc).within .admitting) then
    return false
  (update fun s => { s with pq := p :: s.pq }).within .admitting
  update fun s => { s with ps := { s.ps with fullcount := s.ps.fullcount + 1 } }
  let full ← attempt fun s => fdSet p.fd s.ps.full
  update fun s => { s with ps := { s.ps with full := full } }
  update fun s =>
    { s with ps := { s.ps with
        maxfd := if p.fd > s.ps.maxfd then p.fd else s.ps.maxfd } }
  return true

/-- The first node whose record equals the one `p` points at. -/
def findNode (s : Server) (p : ℕ) : Option ℕ :=
  s.pq.findIdx? fun q => some q = s.pq[p]?

/-- `close_port` on the record of the node at position `p`. -/
def closePort (p : ℕ) : Srv Unit := do
  let port ← node p
  if ← attempt fun s => fdIsSet port.fd s.ps.full then
    if port.has flagMonitor then
      update fun s => { s with monitorcount := s.monitorcount - 1 }
    sysClose port.fd
    if ← look fun s => s.pq.isEmpty then
      return
    match ← look fun s => findNode s p with
    | none => return
    | some found =>
      update fun s => { s with pq := s.pq.eraseIdx found }
      update fun s => { s with ps := { s.ps with fullcount := s.ps.fullcount - 1 } }
      update fun s => { s with ps := { s.ps with full := s.ps.full.erase port.fd } }
      update fun s => { s with ps := { s.ps with maxfd := adjustMaxfd s.ps port.fd } }

/-- `curr ? curr->next : pq`. -/
def advance (curr : Option ℕ) : Srv (Option ℕ) :=
  look fun s =>
    let next := match curr with
      | some c => c + 1
      | none => 0
    if next < s.pq.length then some next else none

end DialdTop
