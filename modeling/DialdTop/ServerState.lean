import DialdTop.Program
import DialdTop.CString
import Mathlib.Data.Finset.Insert
import Mathlib.Data.Finset.Erase

/-!
# State of the server and its system calls

The state holds the static data of the server, the descriptors the kernel has
open on its behalf, and a trace of the system calls by which bytes enter and
leave.  Everything the outside world decides is an `Env`: its answers may
depend on the whole state, hence on the whole history.  The port queue is a
list and a `port_queue_t` pointer is a position in it; the server never
inserts into the queue while it walks along it.
-/

namespace DialdTop

open Program

/-! ## Data of the server -/

def flagRead : BitVec 32 := 0x00000001
def flagWrite : BitVec 32 := 0x00000002
def flagMonitor : BitVec 32 := 0x00000004

/-- The fields of a `sockaddr_in` which vary; the family is always `AF_INET`. -/
structure SockAddr where
  sinAddr : BitVec 32
  sinPort : BitVec 16
  deriving DecidableEq, Repr

/-- `port_t`.  The null pointer is `none`. -/
structure Port where
  fd : Int
  sa : SockAddr
  flag : BitVec 32
  userid : Option (List Byte)
  deriving DecidableEq, Repr

def Port.has (p : Port) (mask : BitVec 32) : Bool :=
  p.flag &&& mask ≠ 0

/-- `thread_fds_t`. -/
structure ThreadFds where
  fullcount : Int
  full : Finset Int
  maxfd : Int
  selcount : Int
  sel : Finset Int
  deriving DecidableEq

def ThreadFds.empty : ThreadFds :=
  { fullcount := 0, full := ∅, maxfd := -1, selcount := 0, sel := ∅ }

/-- `auth_data_t`, a node of the configuration list. -/
structure AuthData where
  userid : List Byte
  ip : BitVec 32
  netmask : BitVec 32
  deriving DecidableEq, Repr

/-! ## System calls -/

inductive Errno
  | epipe
  | other
  deriving DecidableEq, Repr

inductive WriteResult
  | wrote (count : ℕ)
  | error (errno : Errno)
  deriving DecidableEq, Repr

/-- The function which issued a write; `parseIncoming` writes on behalf of a
port. -/
inductive Writer
  | portDaemon
  | parseIncoming (port : Port)
  | monitorOpen
  | fifoServer
  | reauthenticateUsers
  deriving DecidableEq, Repr

/-- `read` returns `none` for -1; end of file is the empty chunk. -/
inductive Event
  | read (fd : Int) (chunk : Option (List Byte))
  | write (writer : Writer) (fd : Int) (text : List Byte) (result : WriteResult)
  | connect (fd : Int) (addr : BitVec 32) (success : Bool)
  deriving DecidableEq, Repr

/-- The static data of the server, the descriptors open in the kernel, and the
trace. -/
structure Server where
  pq : List Port
  aq : List AuthData
  pd : ThreadFds
  ps : ThreadFds
  fs : ThreadFds
  muxedfds : ThreadFds
  controlfd : Int
  monitorfd : Int
  monitor : List Byte
  monitorcount : Int
  sList : Int
  sIn : Port
  kernel : Finset Int
  trace : List Event
  deriving DecidableEq

/-- The statically initialised data. -/
def Server.blank : Server where
  pq := []
  aq := []
  pd := .empty
  ps := .empty
  fs := .empty
  muxedfds := { ThreadFds.empty with maxfd := 0 }
  controlfd := -1
  monitorfd := -1
  monitor := []
  monitorcount := 0
  sList := 0
  sIn := { fd := 0, sa := ⟨0, 0⟩, flag := 0, userid := none }
  kernel := ∅
  trace := []

def Server.log (s : Server) (event : Event) : Server :=
  { s with trace := s.trace ++ [event] }

/-- The answers of the kernel, the network, the file system and the allocator,
and the contents of memory which the code reads before writing it. -/
structure Env where
  malloc : Server → Bool
  socket : Server → Option Int
  bind : Server → Bool
  accept : Server → Option (Int × SockAddr)
  connect : Server → Int → Bool
  read : Server → Int → Option (List Byte)
  write : Server → Int → List Byte → WriteResult
  openControl : Server → Option Int
  openMonitor : Server → Option Int
  tmpnam : Server → List Byte
  fopen : Server → Option (Int × List Byte)
  select : Server → Option (Finset Int)
  /-- The automatic variable `count` of `demux_fds`. -/
  count : Server → Int
  /-- The buffer `line` of `port_daemon`, fresh from `alloca`. -/
  stack : Server → ℕ → Byte
  /-- The automatic variable `addr` at each reduction to `ip`. -/
  addr : Server → ℕ → BitVec 32

/-- A descriptor which the kernel may hand out: not negative and not open.
Any other answer counts as a failure of the call. -/
def Server.fresh (s : Server) (fd : Int) : Prop :=
  0 ≤ fd ∧ fd ∉ s.kernel

instance (s : Server) (fd : Int) : Decidable (s.fresh fd) :=
  inferInstanceAs (Decidable (_ ∧ _))

/-! ## Statements -/

inductive Fault
  | nullString
  | bufferOverflow
  | badDescriptor
  | wildPointer
  deriving DecidableEq, Repr

/-- Why a program stops: it exits, its behaviour is undefined from here on, or
a loop of the model has used up its bound. -/
inductive Halt
  | exit (status : Int)
  | fault (fault : Fault)
  | unfinished
  deriving DecidableEq, Repr

/-- `port_daemon` is `admitting` from the answer of `auth_check` until the new
port is linked into the queue. -/
inductive Place
  | elsewhere
  | admitting
  deriving DecidableEq, Repr

abbrev Srv := Prog Place Server Halt

def look (f : Server → α) : Srv α :=
  .act .elsewhere fun s => .ok (f s, s)

/-- The condition of an `if`, a `while` or a `for`. -/
def test (c : Server → Prop) [DecidablePred c] : Srv Bool :=
  look fun s => decide (c s)

def update (f : Server → Server) : Srv Unit :=
  .act .elsewhere fun s => .ok ((), f s)

/-- A statement whose value or failure depends on the state. -/
def attempt (f : Server → Except Halt α) : Srv α :=
  .act .elsewhere fun s => (f s).map (·, s)

def stop (reason : Halt) : Srv α :=
  .act .elsewhere fun _ => .error reason

@[simp] theorem run_look (f : Server → α) (s : Server) :
    (look f).run s = .ok (f s, s) := by
  simp [look]

@[simp] theorem run_test
    (c : Server → Prop) [DecidablePred c] (s : Server) :
    (test c).run s = .ok (decide (c s), s) := by
  simp [test]

@[simp] theorem run_update (f : Server → Server) (s : Server) :
    (update f).run s = .ok ((), f s) := by
  simp [update]

@[simp] theorem run_attempt (f : Server → Except Halt α) (s : Server) :
    (attempt f).run s = (f s).map (·, s) := by
  simp [attempt]

@[simp] theorem run_stop (reason : Halt) (s : Server) :
    (stop reason : Srv α).run s = .error reason := by
  simp [stop]

/-- `FD_SETSIZE`. -/
def fdSetSize : Int := 1024

/-- `FD_SET` is undefined for a number outside the bit set, also where the bit which
it sets for a negative one happens to lie inside. -/
def fdSet (fd : Int) (set : Finset Int) : Except Halt (Finset Int) :=
  if 0 ≤ fd ∧ fd < fdSetSize then .ok (insert fd set)
  else .error (.fault .badDescriptor)

def fdIsSet (fd : Int) (set : Finset Int) : Except Halt Bool :=
  if 0 ≤ fd ∧ fd < fdSetSize then .ok (decide (fd ∈ set))
  else .error (.fault .badDescriptor)

/-- What `sprintf`, `strcpy` and `strcat` leave in a buffer of the given size:
the text and its final NUL have to fit. -/
def intoBuffer (size : ℕ) (text : List Byte) : Except Halt (List Byte) :=
  if text.length < size then .ok text
  else .error (.fault .bufferOverflow)

theorem intoBuffer_of_lt {size : ℕ} {text : List Byte} (h : text.length < size) :
    intoBuffer size text = .ok text :=
  if_pos h

theorem intoBuffer_of_not_lt {size : ℕ} {text : List Byte} (h : ¬ text.length < size) :
    intoBuffer size text = .error (.fault .bufferOverflow) :=
  if_neg h

/-- The port a `port_queue_t` pointer points at. -/
def node (curr : ℕ) : Srv Port :=
  attempt fun s =>
    match s.pq[curr]? with
    | some p => .ok p
    | none => .error (.fault .wildPointer)

/-- At most `count` bytes of what there is to read. -/
def sysRead (env : Env) (fd : Int) (count : ℕ) : Srv (Option (List Byte)) :=
  .act .elsewhere fun s =>
    let chunk := (env.read s fd).map (·.take count)
    .ok (chunk, s.log (.read fd chunk))

def sysWrite (env : Env) (writer : Writer) (fd : Int) (text : List Byte) :
    Srv WriteResult :=
  .act .elsewhere fun s =>
    let result := env.write s fd text
    .ok (result, s.log (.write writer fd text result))

def sysClose (fd : Int) : Srv Unit :=
  update fun s => { s with kernel := s.kernel.erase fd }

/-- Enter a descriptor into the kernel's table, or fail with -1. -/
def allocate (answer : Server → Option Int) : Srv Int :=
  .act .elsewhere fun s =>
    match answer s with
    | some fd =>
        if s.fresh fd then .ok (fd, { s with kernel := insert fd s.kernel })
        else .ok (-1, s)
    | none => .ok (-1, s)

end DialdTop
