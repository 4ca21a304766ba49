import DialdTop.ConfGrammar
import DialdTop.PortServer

/-!
# Authorisation of users and reload of the configuration
-/

namespace DialdTop

open Program

/-- The first entry for the user whose network contains the address. -/
def authSearch : List AuthData → Option (List Byte) → BitVec 32 → Except Halt Bool
  | [], _, _ => .ok false
  | _ :: _, none, _ => .error (.fault .nullString)
  | conf :: later, some user, ip =>
      if strcasecmp conf.userid user = 0 then
        if ip &&& conf.netmask = conf.ip then .ok true
        else authSearch later (some user) ip
      else authSearch later (some user) ip

/-- The null string prints as `(null)`. -/
def authCheckLine (userid : Option (List Byte)) (ip : BitVec 32) : List Byte :=
  bytes "Checking user: " ++ userid.getD (bytes "(null)") ++ bytes "@" ++
    inetNtoa ip ++ bytes " -- "

def verdict (granted : Bool) : List Byte :=
  if granted then bytes "full access" else bytes "read-only access"

/-- `auth_check`, which formats its log line into a buffer of 256 bytes. -/
def authCheck (aq : List AuthData) (userid : Option (List Byte)) (ip : BitVec 32) :
    Except Halt Bool := do
  let line ← intoBuffer 256 (authCheckLine userid ip)
  let granted ← authSearch aq userid ip
  let _ ← intoBuffer 256 (line ++ verdict granted)
  return granted

/-- `fopen` and the contents of the file. -/
def openConf (env : Env) : Srv (Option (Int × List Byte)) :=
  .act .elsewhere fun s =>
    match env.fopen s with
    | some (fd, text) =>
        if s.fresh fd then
          .ok (some (fd, text), { s with kernel := insert fd s.kernel })
        else .ok (none, s)
    | none => .ok (none, s)

def parseConf (env : Env) (text : List Byte) : Srv Unit :=
  .act .elsewhere fun s =>
    match yyparse (env.addr s) 0 false (confTokens text) s.aq with
    | .error reason => .error reason
    | .ok aq => .ok ((), { s with aq := aq })

def readConf (env : Env) : Srv Unit := do
  match ← openConf env with
  | none => return
  | some (fd, text) =>
    parseConf env text
    sysClose fd

def fullAccessLine : List Byte :=
  bytes "MESSAGE\nServer configuration reloaded - full access granted\n"

def readOnlyLine : List Byte :=
  bytes "MESSAGE\nServer configuration reloaded - read-only access granted\n"

/-- The loop of `reauthenticate_users` with the number of nodes left. -/
def reauthenticate (env : Env) : ℕ → ℕ → Srv Unit
  | 0, _ => return
  | left + 1, curr => do
      assignFlag curr fun flag => flag &&& ~~~(flagRead ||| flagWrite)
      let p ← node curr
      if ← attempt fun s => authCheck s.aq p.userid p.sa.sinAddr then
        let _ ← sysWrite env .reauthenticateUsers p.fd fullAccessLine
        assignFlag curr fun flag => flag ||| (flagRead ||| flagWrite)
      else
        let _ ← sysWrite env .reauthenticateUsers p.fd readOnlyLine
        assignFlag curr fun flag => flag ||| flagRead
      reauthenticate env left (curr + 1)

def reauthenticateUsers (env : Env) : Srv Unit := do
  let count ← look fun s => s.pq.length
  reauthenticate env count 0

/-- The handler of SIGHUP, which runs with the signal ignored. -/
def rereadConf (env : Env) : Srv Unit := do
  update fun s => { s with aq := [] }
  readConf env
  reauthenticateUsers env

end DialdTop
