import DialdTop.PortDaemon

/-!
# Start and main loop of the server
-/

namespace DialdTop

open Program

def portDaemonInit (env : Env) : Srv Unit := do
  let fd ← allocate env.socket
  update fun s => { s with sList := fd }
  if ← test fun s => fd = -1 ∨ env.bind s = false then
    stop (.exit 1)
  let full ← attempt fun _ => fdSet fd ∅
  update fun s => { s with
    pd := { fullcount := 1, full := full, maxfd := fd, selcount := 0, sel := ∅ } }

def portServerInit : Srv Unit :=
  update fun s => { s with ps := .empty }

def fifoServerInit (env : Env) : Srv Unit := do
  let fd ← allocate env.openControl
  update fun s => { s with controlfd := fd }
  update fun s => { s with fs := .empty }

/-- What `main` does before its loop. -/
def start (env : Env) : Srv Unit := do
  portDaemonInit env
  portServerInit
  fifoServerInit env
  readConf env

/-- One round of the loop of `main`. -/
def loopBody (env : Env) (fuel : ℕ) : Srv Unit := do
  doSelect env
  if ← test fun s => s.pd.selcount ≠ 0 then
    portDaemon env
  if ← test fun s => s.ps.selcount ≠ 0 then
    portServer env fuel
  if ← test fun s => s.fs.selcount ≠ 0 then
    fifoServer env fuel

end DialdTop
