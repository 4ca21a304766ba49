import DialdTop.FifoServer
import DialdTop.IdentReply

/-!
# Commands from the connected ports
-/

namespace DialdTop

open Program

/-- An assignment to `curr->port.flag`. -/
def assignFlag (curr : ℕ) (f : BitVec 32 → BitVec 32) : Srv Unit :=
  update fun s =>
    { s with pq := s.pq.modify curr fun p => { p with flag := f p.flag } }

/-- The reply to a command from a port without `FLAG_WRITE`. -/
def noControlLine (line : List Byte) : List Byte :=
  bytes "MESSAGE\nYou have no control access: Command \"" ++
    cleanUserid line ++ bytes "\" ignored\n"

/-- `line` is the chunk which was read; the buffer after it is zero.  The
result tells whether the port was closed. -/
def parseIncoming (env : Env) (line : List Byte) (curr : ℕ) : Srv Bool := do
  if strncasecmp line (bytes "monitor off\r") 12 = 0 ∨
      strncasecmp line (bytes "monitor\r") 8 = 0 then
    let port ← node curr
    if port.has flagMonitor then
      assignFlag curr fun flag => flag &&& ~~~flagMonitor
      update fun s => { s with monitorcount := s.monitorcount - 1 }
    return false
  else if strncasecmp line (bytes "monitor ") 8 = 0 then
    let port ← node curr
    if !port.has flagMonitor then
      assignFlag curr fun flag => flag ||| flagMonitor
      update fun s => { s with monitorcount := s.monitorcount + 1 }
      if ← test fun s => s.fs.fullcount = 0 then
        monitorOpen env
    return false
  else if strncasecmp line (bytes "close") 5 = 0 then
    closePort curr
    return true
  else
    let port ← node curr
    if port.has flagWrite then
      let controlfd ← look fun s => s.controlfd
      let _ ← sysWrite env (.parseIncoming port) controlfd line
      return false
    else
      let outline ← attempt fun _ => intoBuffer 1024 (noControlLine line)
      let _ ← sysWrite env (.parseIncoming port) port.fd outline
      return false

/-- The loop over the queue, with the bound on its number of rounds first. -/
def serve (env : Env) (count : Int) : ℕ → Option ℕ → Option ℕ → Int → Srv Unit
  | 0, _, _, _ => stop .unfinished
  | _ + 1, none, _, _ => return
  | fuel + 1, some curr, prev, i => do
      if i < count then
        let port ← node curr
        if ← attempt fun s => fdIsSet port.fd s.ps.sel then
          match ← sysRead env port.fd 1000 with
          | some (b :: bs) =>
              let closed ← parseIncoming env (b :: bs) curr
              let left := if closed then prev else some curr
              serve env count fuel (← advance left) left (i + 1)
          | _ =>
              closePort curr
              serve env count fuel (← advance prev) prev (i + 1)
        else
          serve env count fuel (← advance (some curr)) (some curr) i
      else
        return

def portServer (env : Env) (fuel : ℕ) : Srv Unit := do
  let count ← look fun s => s.ps.selcount
  serve env count fuel (← advance none) none 0

end DialdTop
