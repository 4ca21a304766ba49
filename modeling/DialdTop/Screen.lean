import DialdTop.FaultingRuns
import DialdTop.FormattedFields
import DialdTop.HostTable
import DialdTop.MonitorParser
import Mathlib.Logic.Function.Basic

/-!
# The screen of the client

The rows of the packet table live in `scrbuff`, an array of pointers to memory
which `screen_init` allocates for the size of the terminal.  The functions below
check every access to the array, to a row and to a buffer; one which C does not
define ends in a fault.
-/

namespace DialdTop

namespace Monitor

/-! ## Data -/

/-- `LINES` and `COLS`, as `initscr` finds them. -/
structure Terminal where
  lines : ℕ
  cols : ℕ
  deriving DecidableEq, Repr

inductive ScreenFault
  /-- an index outside of `scrbuff` -/
  | index
  /-- a row which is none of the `numbuff` rows, or not allocated -/
  | row
  /-- a write behind the end of a buffer -/
  | overflow
  /-- a row printed without a NUL -/
  | unterminated
  /-- no format, or a negative precision in it -/
  | format
  /-- `count++` behind `INT_MAX` -/
  | counter
  deriving DecidableEq, Repr

/-- `none` in `scrbuff` is a null pointer.  The only part of `format` which varies
is its field width, the `ip_width` of `init_fifo`. -/
structure Screen where
  terminal : Terminal
  cols : ℕ
  numbuff : ℕ
  scrbuff : ℕ → Option (List Byte)
  ipWidth : Int
  format : Option Int
  count : ℕ
  currState : List Byte
  now : Int
  hosts : HostTable

/-- The variables before `screen_init`. -/
def Screen.unset : Screen where
  terminal := { lines := 0, cols := 0 }
  cols := 0
  numbuff := 0
  scrbuff _ := none
  ipWidth := 0
  format := none
  count := 0
  currState := []
  now := 0
  hosts := HostTable.empty

/-- The arguments of `do_packet`. -/
structure PacketCall where
  protocol : List Byte
  ip1 : List Byte
  port1 : Int
  ip2 : List Byte
  port2 : Int
  ttl : List Byte

/-- What a call of `do_packet` finds in the library: the services, the names of
hosts, and which of two arguments is evaluated first. -/
structure Lookups where
  getservbyport : Int → List Byte → Option (List Byte)
  world : World
  ip1First : Bool

/-- What `malloc` leaves in the row of the given index. -/
abbrev Garbage := ℕ → ℕ → Byte

def headLines : ℕ := 9
def lineLength : ℕ := 256
def maxbufs : ℕ := 256
def bufLength : ℕ := 512

/-! ## Rows -/

/-- The value of `scrbuff[i]`. -/
def Screen.pointer (s : Screen) (i : ℕ) : Except ScreenFault (Option (List Byte)) :=
  if i < maxbufs then .ok (s.scrbuff i) else .error .index

/-- An assignment to `scrbuff[i]`. -/
def Screen.assign (s : Screen) (i : ℕ) (p : Option (List Byte)) : Except ScreenFault Screen :=
  if i < maxbufs then .ok { s with scrbuff := Function.update s.scrbuff i p } else .error .index

/-- The memory at `scrbuff[i]`. -/
def Screen.row (s : Screen) (i : ℕ) : Except ScreenFault (List Byte) :=
  (s.pointer i).bind fun p =>
    match p with
    | some row => if i < s.numbuff then .ok row else .error .row
    | none => .error .row

/-- A write to the first `n` bytes at `scrbuff[i]`. -/
def Screen.write (s : Screen) (i n : ℕ) (f : List Byte → List Byte) :
    Except ScreenFault Screen :=
  (s.row i).bind fun row =>
    if n ≤ row.length then s.assign i (some (f row)) else .error .overflow

/-- `cols + 1` bytes with a NUL in front. -/
def freshRow (cols : ℕ) (garbage : ℕ → Byte) : List Byte :=
  nul :: (List.range cols).map garbage

/-! ## Sizes -/

/-- The loop of `screen_init`, which ends at `MAXBUFS` when no round is left. -/
def allocRows (garbage : Garbage) (lines : ℕ) : ℕ → Screen → Except ScreenFault Screen
  | 0, s => .ok s
  | left + 1, s =>
      if s.numbuff ≤ lines then
        (s.assign s.numbuff (some (freshRow s.cols (garbage s.numbuff)))).bind fun s =>
          allocRows garbage lines left { s with numbuff := s.numbuff + 1 }
      else .ok s

def screenInit (t : Terminal) (garbage : Garbage) (s : Screen) : Except ScreenFault Screen :=
  let s := { s with terminal := t, cols := t.cols, numbuff := 0 }
  (allocRows garbage t.lines maxbufs s).bind fun s =>
    .ok { s with currState := [], ipWidth := ((t.cols : Int) - 36).tdiv 2 }

/-- `free` of the row, if there is one, and a null pointer in its place. -/
def freeRow (i : ℕ) (s : Screen) : Except ScreenFault Screen :=
  (s.pointer i).bind fun _ => s.assign i none

/-- The loop of `do_screen_resize`, which begins at `numbuff` and ends at zero. -/
def freeRows : ℕ → Screen → Except ScreenFault Screen
  | 0, s => freeRow 0 s
  | i + 1, s => (freeRow (i + 1) s).bind (freeRows i)

def doScreenResize (t : Terminal) (garbage : Garbage) (s : Screen) :
    Except ScreenFault Screen :=
  (freeRows s.numbuff s).bind (screenInit t garbage)

/-- The variables of the screen which `init_fifo` sets. -/
def initFifo (s : Screen) : Screen :=
  { s with count := 0, format := some s.ipWidth }

/-! ## The queue -/

/-- The loop of `do_queue` over the rows before `i`. -/
def clearRows : ℕ → Screen → Except ScreenFault Screen
  | 0, s => .ok s
  | i + 1, s => (clearRows i s).bind fun s => s.write i 1 (·.set 0 nul)

def doQueue (now : Int) (s : Screen) : Except ScreenFault Screen :=
  clearRows s.numbuff { s with now := now, count := 0 }

def service (env : Lookups) (port : Int) (proto : List Byte) : List Byte :=
  match env.getservbyport port proto with
  | some name => cString name
  | none => (stringField (-5) (printInt port)).take 5

/-- The two calls of `resolve` for a packet. -/
def resolveBoth (env : Lookups) (p : PacketCall) (s : Screen) : List Byte × List Byte × HostTable :=
  let w := { env.world with currState := s.currState, now := s.now }
  if env.ip1First then
    let (name1, hosts) := resolve w p.ip1 s.hosts
    let (name2, hosts) := resolve w p.ip2 hosts
    (name1, name2, hosts)
  else
    let (name2, hosts) := resolve w p.ip2 s.hosts
    let (name1, hosts) := resolve w p.ip1 hosts
    (name1, name2, hosts)

/-- The text of a packet in the format of `init_fifo`, which has the width `w`:
`%-4.4s %w.ws/%-8.8s %w.ws/%-8.8s  %s\n`. -/
def packetText (w : ℕ) (protocol name1 destports name2 sourceports ttl : List Byte) :
    List Byte :=
  cutField (-4) 4 (cString protocol) ++ bytes " " ++
    cutField w w (cString name1) ++ bytes "/" ++ cutField (-8) 8 destports ++ bytes " " ++
    cutField w w (cString name2) ++ bytes "/" ++ cutField (-8) 8 sourceports ++ bytes "  " ++
    cString ttl ++ [newline]

/-- The text which `do_packet` formats for a packet. -/
def Screen.packetText (s : Screen) (env : Lookups) (p : PacketCall) (w : ℕ) : List Byte :=
  let (name1, name2, _) := resolveBoth env p s
  Monitor.packetText w p.protocol name1 (service env p.port1 p.protocol) name2
    (service env p.port2 p.protocol) p.ttl

/-- The condition of `do_packet`. -/
def Screen.Shown (s : Screen) : Prop :=
  (s.count : Int) ≤ (s.terminal.lines : Int) - headLines

instance (s : Screen) : Decidable s.Shown :=
  inferInstanceAs (Decidable ((s.count : Int) ≤ (s.terminal.lines : Int) - headLines))

/-- The width in the format, whose precision must not be negative. -/
def Screen.formatWidth (s : Screen) : Except ScreenFault ℕ :=
  match s.format with
  | some (.ofNat w) => .ok w
  | _ => .error .format

/-- The body of the condition of `do_packet`. -/
def showPacket (env : Lookups) (p : PacketCall) (s : Screen) : Except ScreenFault Screen :=
  s.formatWidth.bind fun w =>
    let buf := s.packetText env p w
    if bufLength < buf.length + 1 then .error .overflow
    else
      let s := { s with hosts := (resolveBoth env p s).2.2 }
      s.write s.count s.cols (strncpy · buf s.cols)

/-- `count++`, of an `int` which is never negative. -/
def Screen.counted (s : Screen) : Except ScreenFault Screen :=
  if (s.count : Int) < intMax then .ok { s with count := s.count + 1 } else .error .counter

def doPacket (env : Lookups) (p : PacketCall) (s : Screen) : Except ScreenFault Screen :=
  if s.Shown then (showPacket env p s).bind Screen.counted else s.counted

/-! ## The display -/

/-- What `do_state` formats for the state of the link. -/
def stateLine (state : List Byte) : List Byte :=
  bytes "Link Status:  " ++ state ++ bytes "          "

/-- What `do_state` formats for the length of the queue. -/
def countLine (count : ℕ) : List Byte :=
  bytes "   Packets Queued:  " ++ decimal count ++ bytes "   "

/-- `curr_state` and `line` have the same length. -/
def doState (state : List Byte) (s : Screen) : Except ScreenFault Screen :=
  let text := cString state
  if lineLength < text.length + 1 then .error .overflow
  else if lineLength < (stateLine text).length + 1 then .error .overflow
  else if lineLength < (countLine s.count).length + 1 then .error .overflow
  else .ok { s with currState := text }

/-- A text which is printed at a line and a column of `sub`. -/
structure Printed where
  y : ℕ
  x : ℕ
  text : List Byte
  deriving DecidableEq, Repr

/-- The loop of `read_fifo` over the rows from `i` on. -/
def printRows (s : Screen) : ℕ → ℕ → Except ScreenFault (List Printed)
  | 0, _ => .ok []
  | left + 1, i =>
      if i < s.count then
        (s.row i).bind fun row =>
          if nul ∈ row then
            (printRows s left (i + 1)).bind fun more =>
              .ok ({ y := i, x := 0, text := cString row } :: more)
          else .error .unterminated
      else .ok []

/-- The list of packets at the end of `read_fifo`. -/
def printPackets (s : Screen) : Except ScreenFault (List Printed) :=
  if s.count = 0 then .ok [{ y := 0, x := 5, text := bytes "No packets queued\n" }]
  else printRows s s.numbuff 0

/-- The redisplay of `read_fifo`, without the resize in front of it. -/
def redraw (s : Screen) : Except ScreenFault Screen :=
  (doState s.currState s).bind fun s => (printPackets s).bind fun _ => .ok s

/-! ## Runs -/

inductive ScreenOp
  | screenInit (t : Terminal) (garbage : Garbage)
  | doScreenResize (t : Terminal) (garbage : Garbage)
  | initFifo
  | doQueue (now : Int)
  | doPacket (env : Lookups) (p : PacketCall)
  | doState (state : List Byte)
  | redraw

def ScreenOp.perform : ScreenOp → Screen → Except ScreenFault Screen
  | .screenInit t garbage, s => Monitor.screenInit t garbage s
  | .doScreenResize t garbage, s => Monitor.doScreenResize t garbage s
  | .initFifo, s => .ok (Monitor.initFifo s)
  | .doQueue now, s => Monitor.doQueue now s
  | .doPacket env p, s => Monitor.doPacket env p s
  | .doState state, s => Monitor.doState state s
  | .redraw, s => Monitor.redraw s

end Monitor

end DialdTop
