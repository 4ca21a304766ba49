import DialdTop.PortQueue

/-!
# The relay of the monitor FIFO
-/

namespace DialdTop

open Program

/-- The line by which diald is asked to write to the monitor FIFO. -/
def monitorLine (path : List Byte) : List Byte :=
  bytes "monitor " ++ path ++ bytes "\n"

def monitorOpen (env : Env) : Srv Unit := do
  if ← test fun s => s.monitorfd ≠ -1 then
    return
  let path ← attempt fun s => intoBuffer 255 (env.tmpnam s)
  update fun s => { s with monitor := path }
  let fd ← allocate env.openMonitor
  update fun s => { s with monitorfd := fd }
  if fd = -1 then
    return
  let line ← attempt fun s => intoBuffer 1002 (monitorLine s.monitor)
  let controlfd ← look fun s => s.controlfd
  let _ ← sysWrite env .monitorOpen controlfd line
  update fun s => { s with fs := { s.fs with fullcount := 1 } }
  let full ← attempt fun _ => fdSet fd ∅
  update fun s => { s with fs := { s.fs with full := full } }
  update fun s => { s with fs := { s.fs with maxfd := fd } }

def monitorClose : Srv Unit := do
  let fd ← look fun s => s.monitorfd
  if fd = -1 then
    return
  sysClose fd
  update fun s => { s with monitorfd := -1 }
  update fun s => { s with fs := .empty }

/-- The walk along the queue for one chunk.  The variable `prev` of the source
is never assigned after its initialisation to NULL. -/
def relay (env : Env) (chunk : List Byte) : ℕ → Option ℕ → Int → Srv Unit
  | 0, _, _ => stop .unfinished
  | _ + 1, none, _ => return
  | fuel + 1, some curr, i => do
      if ← test fun s => i < s.monitorcount then
        let port ← node curr
        if port.has flagMonitor then
          let res ← sysWrite env .fifoServer port.fd chunk
          if res = .error .epipe then
            closePort curr
            relay env chunk fuel (← advance none) (i + 1)
          else
            relay env chunk fuel (← advance (some curr)) (i + 1)
        else
          relay env chunk fuel (← advance (some curr)) i

/-- The loop for one chunk, from the head of the queue. -/
def relayChunk (env : Env) (chunk : List Byte) (walk : ℕ) : Srv Unit := do
  relay env chunk walk (← advance none) 0

/-- The loop over the chunks read from the FIFO.  The first bound is for the
number of reads, the second for the walk along the queue. -/
def relayAll (env : Env) (walk : ℕ) : ℕ → Srv Unit
  | 0 => stop .unfinished
  | fuel + 1 => do
      let monitorfd ← look fun s => s.monitorfd
      match ← sysRead env monitorfd 1000 with
      | none => return
      | some [] => return
      | some chunk =>
        relayChunk env chunk walk
        if ← test fun s => s.monitorcount ≠ 0 then
          relayAll env walk fuel

def fifoServer (env : Env) (fuel : ℕ) : Srv Unit := do
  if ← test fun s => s.ps.fullcount = 0 ∨ s.monitorcount = 0 then
    monitorClose
  else
    relayAll env fuel fuel

end DialdTop
