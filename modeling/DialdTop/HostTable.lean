import DialdTop.ChainedTable
import DialdTop.DottedQuad

/-!
# The table of host names

`resolve` keeps what the name service answered in a hash table with chains.  A
`struct hostrec *` is a position in the chain to which its address hashes.  A
call may find the clock, the state of the link and the answers of the name
service in any state; these are its `World`.
-/

namespace DialdTop

/-! ## Data -/

structure HostRec where
  addr : BitVec 32
  name : List Byte
  trunc : List Byte
  timeResolved : Int
  deriving DecidableEq, Repr

/-- `h_errno`. -/
inductive HErrno
  | netdbInternal
  | hostNotFound
  | tryAgain
  | noRecovery
  | noAddress
  deriving DecidableEq, Repr

/-- The answer of `gethostbyaddr`, with `h_name` when there is a host. -/
inductive Host
  | found (hName : List Byte)
  | failed (hErrno : HErrno)
  deriving DecidableEq, Repr

/-- The variables which a call of `resolve` reads, the answers of the library,
and what `malloc` leaves in a new record. -/
structure World where
  numeric : Bool
  now : Int
  currState : List Byte
  rxload : Fin 3 → Int
  txload : Fin 3 → Int
  truncLocalHosts : Bool
  gethostbyaddr : BitVec 32 → Host
  getdomainname : List Byte
  garbage : HostRec

/-- A call of `gethostbyaddr` on behalf of `resolve(aaddr)`, with the domain
which `truncate_hostname` uses at that time. -/
structure Query where
  addr : BitVec 32
  aaddr : List Byte
  host : Host
  now : Int
  domain : List Byte
  deriving DecidableEq, Repr

/-- `hosthash`, the buffer `mydomain` of `truncate_hostname`, and the queries
made so far. -/
structure HostTable where
  hosthash : ℕ → List HostRec
  mydomain : List Byte
  queries : List Query

def HostTable.empty : HostTable where
  hosthash _ := []
  mydomain := []
  queries := []

def hashSize : ℕ := 65536
def hostrecExpire : Int := 60 * 60 * 24 * 2
def maxQueryLoad : Int := 200

/-! ## Functions -/

/-- `addr` is in network order, so that `c[0]` is its first octet. -/
def HostTable.hash (addr : BitVec 32) : ℕ :=
  let c (i : ℕ) : BitVec 8 := addr.extractLsb' (8 * (3 - i)) 8
  (c 0 ^^^ c 2).toNat + ((c 1 ^^^ c 3).toNat <<< 8)

/-- The record with the address, or a new one at the head of its chain. -/
def gettab (garbage : HostRec) (addr : BitVec 32) (t : HostTable) : ℕ × HostTable :=
  match HashTable.position HostTable.hash HostRec.addr t.hosthash addr with
  | some hr => (hr, t)
  | none => (0, { t with hosthash := HashTable.push t.hosthash (HostTable.hash addr) garbage })

def probetab (addr : BitVec 32) (t : HostTable) : Bool :=
  (t.hosthash (HostTable.hash addr)).any fun hr => hr.addr = addr

/-- The position of the first occurrence. -/
def strstr (haystack needle : List Byte) : Option ℕ :=
  (List.range (haystack.length + 1)).find? fun i => needle.isPrefixOf (haystack.drop i)

def truncateHostname (mydomain hostname : List Byte) : List Byte :=
  match strstr hostname mydomain with
  | some ptr => if 0 < ptr then hostname.take (ptr - 1) else hostname
  | none => hostname

/-- `mydomain` after the first lines of `truncate_hostname`. -/
def domainOf (w : World) (t : HostTable) : List Byte :=
  if t.mydomain = [] then w.getdomainname else t.mydomain

/-- The record `hr` points at. -/
def HostTable.record (t : HostTable) (addr : BitVec 32) (hr : ℕ) : Option HostRec :=
  (t.hosthash (HostTable.hash addr))[hr]?

/-- An assignment to fields of `*hr`. -/
def HostTable.assign (t : HostTable) (addr : BitVec 32) (hr : ℕ) (f : HostRec → HostRec) :
    HostTable :=
  { t with hosthash := HashTable.modify t.hosthash (HostTable.hash addr) hr f }

/-- `!hr || now - hr->time_resolved > HOSTREC_EXPIRE`. -/
def stale (w : World) (addr : BitVec 32) (t : HostTable) : Option ℕ → Bool
  | none => true
  | some hr => (t.record addr hr).any fun r => w.now - r.timeResolved > hostrecExpire

/-- The sum for the transmitted loads has `rxload[2]` in it. -/
def mayQuery (w : World) : Bool :=
  w.currState = bytes "UP" ∧
    wrapInt (wrapInt (w.rxload 0 + w.rxload 1) + w.rxload 2) < maxQueryLoad ∧
    wrapInt (wrapInt (w.txload 0 + w.txload 1) + w.rxload 2) < maxQueryLoad

/-- The arrays `rxload` and `txload`. -/
structure Loads where
  rxload : Fin 3 → Int
  txload : Fin 3 → Int

/-- Both sums in the condition of `resolve` are small. -/
def Loads.PassGuard (s : Loads) : Prop :=
  wrapInt (wrapInt (s.rxload 0 + s.rxload 1) + s.rxload 2) < maxQueryLoad ∧
    wrapInt (wrapInt (s.txload 0 + s.txload 1) + s.rxload 2) < maxQueryLoad

def doLoad (itxtotal irxtotal : Int) (s : Loads) : Loads where
  rxload
    | 0 => s.rxload 1
    | 1 => s.rxload 2
    | 2 => irxtotal
  txload
    | 0 => s.txload 1
    | 1 => s.txload 2
    | 2 => itxtotal

/-- The end of `resolve`. -/
def shownName (w : World) (aaddr : List Byte) (addr : BitVec 32) (t : HostTable) :
    Option ℕ → List Byte
  | none => aaddr
  | some hr =>
      match t.record addr hr with
      | some r => if w.truncLocalHosts then r.trunc else r.name
      | none => aaddr

/-- `if (!hr) hr = gettab(addr)`. -/
def ensure (w : World) (addr : BitVec 32) (hr : Option ℕ) (t : HostTable) :
    ℕ × HostTable :=
  match hr with
  | none => gettab w.garbage addr t
  | some hr => (hr, t)

/-- The four assignments which complete a record. -/
def complete (addr : BitVec 32) (name : List Byte) (now : Int) (hr : HostRec) : HostRec :=
  { hr with name := name, trunc := name, addr := addr, timeResolved := now }

/-- The part of `resolve` behind the call of `gethostbyaddr`. -/
def learn (w : World) (aaddr : List Byte) (addr : BitVec 32) (hr : Option ℕ)
    (t : HostTable) : List Byte × HostTable :=
  match w.gethostbyaddr addr with
  | .failed hErrno =>
      if hErrno = .hostNotFound ∨ hErrno = .noAddress then
        let (hr, t) := ensure w addr hr t
        (aaddr, t.assign addr hr (complete addr aaddr w.now))
      else (aaddr, t)
  | .found hName =>
      let (hr, t) := ensure w addr hr t
      let t := t.assign addr hr (complete addr hName w.now)
      let t := { t with mydomain := domainOf w t }
      let t := t.assign addr hr fun r => { r with trunc := truncateHostname t.mydomain r.trunc }
      (shownName w aaddr addr t (some hr), t)

def resolve (w : World) (aaddr : List Byte) (t : HostTable) : List Byte × HostTable :=
  match inetPton aaddr with
  | none => (aaddr, t)
  | some addr =>
      if w.numeric then (aaddr, t)
      else
        let (hr, t) :=
          if probetab addr t then
            let (hr, t) := gettab w.garbage addr t
            (some hr, t)
          else (none, t)
        if stale w addr t hr ∧ mayQuery w then
          let query : Query :=
            { addr := addr, aaddr := aaddr, host := w.gethostbyaddr addr, now := w.now
              domain := domainOf w t }
          learn w aaddr addr hr { t with queries := t.queries ++ [query] }
        else (shownName w aaddr addr t hr, t)

end DialdTop
