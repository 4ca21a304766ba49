import DialdTop.Authenticate

/-!
# Admission of a new port
-/

namespace DialdTop

open Program

def unauthorizedLine : List Byte :=
  bytes "MESSAGE\nUnauthorized Access -- Monitor only (no ident)\n"

def identRequest (sa : SockAddr) : List Byte :=
  decimal sa.sinPort.toNat ++ bytes ", 1313\n"

/-- A buffer after a text has been stored at its start. -/
def store (memory text : List Byte) : List Byte :=
  text ++ memory.drop text.length

/-- The buffer `line` when the reply has been read: request and reply are
stored over what the stack held, and no NUL after the reply. -/
def identBuffer (stack : ℕ → Byte) (request reply : List Byte) : List Byte :=
  store (store ((List.range 257).map stack) (request ++ [nul])) reply

/-- `clean_userid` for the log, which cuts the buffer in place.  Without LF, CR
and NUL it runs past the end. -/
def cutBuffer (buffer : List Byte) : Except Halt (List Byte) :=
  if buffer.any fun c => c = newline ∨ c = carriageReturn ∨ c = nul then
    .ok (cutLine buffer)
  else .error (.fault .wildPointer)

def greeting (userid : List Byte) (addr : BitVec 32) (granted : Bool) : List Byte :=
  bytes "MESSAGE\nUser " ++ userid ++ bytes "@" ++ inetNtoa addr ++
    (if granted then bytes " connected -- Full access\n"
     else bytes " connected -- Monitor access\n")

/-- `s_in.fd = accept(...)`. -/
def acceptPort (env : Env) : Srv Unit :=
  .act .elsewhere fun s =>
    match env.accept s with
    | some (fd, sa) =>
        if s.fresh fd then
          .ok ((), { s with
            sIn := { s.sIn with fd := fd, sa := sa }
            kernel := insert fd s.kernel })
        else .ok ((), { s with sIn := { s.sIn with fd := -1 } })
    | none => .ok ((), { s with sIn := { s.sIn with fd := -1 } })

/-- `accept` returns a connection. -/
def Accepts (env : Env) (s : Server) : Prop :=
  ∃ fd sa, env.accept s = some (fd, sa) ∧ s.fresh fd

def sysConnect (env : Env) (fd : Int) (addr : BitVec 32) : Srv Bool :=
  .act .elsewhere fun s =>
    let success := decide (fd ≠ -1) && env.connect s fd
    .ok (success, s.log (.connect fd addr success))

/-- The end of `port_daemon`: the port is enqueued, or closed again. -/
def enqueueIncoming (env : Env) : Srv Unit := do
  let p ← (look fun s => s.sIn).within .admitting
  if !(← portEnqueue env p) then
    sysClose p.fd

/-- The statements between the answer of `auth_check` and the call of
`port_enqueue`. -/
def greet (env : Env) (userid : List Byte) (granted : Bool) : Srv Unit := do
  let user ← attempt fun s =>
    intoBuffer 257 (greeting userid s.sIn.sa.sinAddr granted)
  update fun s => { s with
    sIn := { s.sIn with flag := if granted then flagRead ||| flagWrite else flagRead } }
  let fd ← look fun s => s.sIn.fd
  let _ ← sysWrite env .portDaemon fd user

/-- The branch in which identd does not answer. -/
def admitWithoutIdent (env : Env) : Srv Unit := do
  let fd ← look fun s => s.sIn.fd
  let _ ← sysWrite env .portDaemon fd unauthorizedLine
  update fun s => { s with sIn := { s.sIn with flag := flagRead } }
  update fun s => { s with sIn := { s.sIn with userid := none } }
  enqueueIncoming env

/-- The exchange with identd on the descriptor `sIdent`, up to the name in
`s_in.userid`. -/
def askIdent (env : Env) (sIdent : Int) : Srv (List Byte) := do
  let request ← attempt fun s => intoBuffer 257 (identRequest s.sIn.sa)
  let _ ← sysWrite env .portDaemon sIdent request
  let reply ← sysRead env sIdent 256
  sysClose sIdent
  let line ← attempt fun s =>
    cutBuffer (identBuffer (env.stack s) request (reply.getD []))
  let userid := reapUserid line
  update fun s => { s with sIn := { s.sIn with userid := some userid } }
  return userid

def portDaemon (env : Env) : Srv Unit := do
  acceptPort env
  let addr ← look fun s => s.sIn.sa.sinAddr
  let sIdent ← allocate env.socket
  if ← sysConnect env sIdent addr then
    let userid ← askIdent env sIdent
    let granted ← attempt fun s => authCheck s.aq (some userid) s.sIn.sa.sinAddr
    (greet env userid granted).within .admitting
    enqueueIncoming env
  else
    admitWithoutIdent env

end DialdTop
