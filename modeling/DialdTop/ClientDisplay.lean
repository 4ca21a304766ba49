import DialdTop.InterfaceLine
import DialdTop.LinkState
import DialdTop.RecordRelay
import DialdTop.ResolvedNames

/-!
# What the client displays

The calls of the parser change the variables of the client and the lines of its
windows.  On a screen of fixed size the windows show the records which have
arrived: the last state, interface and message, and the packets of the last queue,
wherever `read_fifo` redraws them in between.
-/

namespace DialdTop

open Scanner

namespace Monitor

/-! ## The client -/

/-- What has been printed on a line of `full` since it was cleared, with the columns. -/
abbrev Line := List (Int × List Byte)

/-- `LINE_STATE`, `LINE_INTERFACE` and `LINE_MESSAGE` of `full` are `link`, `interface` and
`message`, and `sub` is what has been printed there since it was erased. -/
structure Client where
  screen : Screen
  loads : Loads
  link : Line
  interface : Line
  message : Line
  sub : List Printed

/-- What a call finds: the time, the name service with the options, and the order
in which arguments are evaluated. -/
structure Moment where
  now : Int
  world : World
  ip1First : Bool

/-- `(COLS - strlen(line)) / 2`, where the subtraction is that of `size_t`. -/
def centred (cols length : ℕ) : Int :=
  wrapInt (wrapSize ((cols : Int) - length) / 2)

/-- The format of `do_interface`. -/
def interfaceFormat (spcs : Int) : List Byte :=
  bytes "%-s%s%" ++ printInt spcs ++ bytes "s%-s%s%" ++ printInt spcs ++ bytes "s%-s%s"

/-- `Message:  %-*.*s`, for a precision `w` which counts unless it is negative. -/
def messageLine (cols : ℕ) (message : List Byte) : List Byte :=
  let w : Int := (cols : Int) - 10
  bytes "Message:  " ++ if 0 ≤ w then cutField (-w) w.toNat message else stringField w message

namespace Client

def doState (state : List Byte) (c : Client) : Except ScreenFault Client :=
  (Monitor.doState state c.screen).bind fun s =>
    let count := countLine s.count
    .ok { c with
      screen := s
      link := [(0, stateLine s.currState), (centred s.terminal.cols count.length, count)] }

def doLoad (itxtotal irxtotal : Int) (c : Client) : Client :=
  { c with loads := DialdTop.doLoad itxtotal irxtotal c.loads }

/-- `fmt` has `COLS` bytes. -/
def doInterface (interface localIp remoteIp : List Byte) (c : Client) :
    Except ScreenFault Client :=
  let cols := c.screen.terminal.cols
  let spcs := interfaceSpaces cols (cString interface) (cString localIp) (cString remoteIp)
  let line := interfaceLine cols (cString interface) (cString localIp) (cString remoteIp)
  if cols < (interfaceFormat spcs).length + 1 then .error .overflow
  else if interfaceRoom cols < line.length + 1 then .error .overflow
  else .ok { c with interface := [(0, line)] }

def doMessage (message : List Byte) (c : Client) : Client :=
  { c with message := [(0, messageLine c.screen.terminal.cols (cString message))] }

def doQueue (now : Int) (c : Client) : Except ScreenFault Client :=
  (Monitor.doQueue now c.screen).bind fun s => .ok { c with screen := s, sub := [] }

section Calls

variable (services : Int → List Byte → Option (List Byte))

def lookups (m : Moment) (c : Client) : Lookups where
  getservbyport := services
  world := m.world.loaded c.loads
  ip1First := m.ip1First

def doPacket (m : Moment) (p : PacketCall) (c : Client) : Except ScreenFault Client :=
  (Monitor.doPacket (c.lookups services m) p c.screen).bind fun s => .ok { c with screen := s }

/-- `do_status` and `do_endqueue` are empty. -/
def call (m : Moment) (c : Client) : Call → Except ScreenFault Client
  | .doStatus .. => .ok c
  | .doLoad itxtotal irxtotal => .ok (c.doLoad itxtotal irxtotal)
  | .doInterface interface localIp remoteIp => c.doInterface interface localIp remoteIp
  | .doState state => c.doState state
  | .doMessage message => .ok (c.doMessage message)
  | .doQueue => c.doQueue m.now
  | .doPacket protocol ip1 port1 ip2 port2 ttl =>
      c.doPacket services m
        { protocol := protocol, ip1 := ip1, port1 := port1, ip2 := ip2, port2 := port2, ttl := ttl }
  | .doEndqueue => .ok c

/-- The redisplay of `read_fifo`. -/
def redisplay (c : Client) : Except ScreenFault Client :=
  (c.doState c.screen.currState).bind fun c =>
    (printPackets c.screen).bind fun rows => .ok { c with sub := rows }

end Calls

end Client

/-- The end of the help screen leaves `sub` clear. -/
inductive ClientOp
  | call (m : Moment) (call : Call)
  | redisplay
  | help

def ClientOp.made : ClientOp → Option Call
  | .call _ made => some made
  | _ => none

def Client.perform (services : Int → List Byte → Option (List Byte)) :
    ClientOp → Client → Except ScreenFault Client
  | .call m made, c => c.call services m made
  | .redisplay, c => c.redisplay
  | .help, c => .ok { c with sub := [] }

/-- The client behind `screen_init` and `init_fifo`. -/
def Client.started (t : Terminal) (garbage : Garbage) : Client where
  screen := Screen.started t garbage
  loads := .zero
  link := []
  interface := []
  message := []
  sub := []

/-! ## The view -/

/-- What the records say. -/
structure View where
  link : List Byte
  queue : List PacketCall
  loads : List LoadCall
  interface : Option (List Byte × List Byte × List Byte)
  message : Option (List Byte)

def View.initial : View where
  link := []
  queue := []
  loads := []
  interface := none
  message := none

def View.call (v : View) : Call → View
  | .doStatus .. => v
  | .doLoad itxtotal irxtotal => { v with loads := v.loads ++ [⟨itxtotal, irxtotal⟩] }
  | .doInterface interface localIp remoteIp =>
      { v with interface := some (cString interface, cString localIp, cString remoteIp) }
  | .doState state => { v with link := cString state }
  | .doMessage message => { v with message := some (cString message) }
  | .doQueue => { v with queue := [] }
  | .doPacket protocol ip1 port1 ip2 port2 ttl =>
      { v with queue := v.queue ++ [⟨protocol, ip1, port1, ip2, port2, ttl⟩] }
  | .doEndqueue => v

def View.calls (v : View) (calls : List Call) : View := calls.foldl View.call v

def Packet.packetCall (p : Packet) : PacketCall where
  protocol := p.protocol.text
  ip1 := p.ip1.text
  port1 := p.port1.value
  ip2 := p.ip2.text
  port2 := p.port2.value
  ttl := p.ttl.text

/-- A queue replaces the one before it. -/
def View.record (v : View) : Record → View
  | .report r => v.call r.call
  | .queue packets => { v with queue := packets.map Packet.packetCall }

def View.records (v : View) (rs : List Record) : View := rs.foldl View.record v

theorem View.calls_append (v : View) (calls later : List Call) :
    v.calls (calls ++ later) = (v.calls calls).calls later :=
  List.foldl_append

theorem View.calls_packets (v : View) (packets : List Packet) :
    v.calls (packets.map Packet.call) =
      { v with queue := v.queue ++ packets.map Packet.packetCall } := by
  induction packets generalizing v with
  | nil => simp [View.calls]
  | cons p packets ih =>
      rw [List.map_cons, View.calls, List.foldl_cons]
      change (v.call p.call).calls (packets.map Packet.call) = _
      rw [ih]
      simp [View.call, Packet.call, Packet.packetCall]

theorem View.calls_record (v : View) (r : Record) : v.calls r.calls = v.record r := by
  cases r with
  | report r => rfl
  | queue packets =>
      change (({ v with queue := [] } : View).calls
        (packets.map Packet.call ++ [.doEndqueue])) = _
      rw [View.calls_append, View.calls_packets]
      rfl

theorem View.calls_prescribed (v : View) (rs : List Record) :
    v.calls (prescribed rs) = v.records rs := by
  induction rs generalizing v with
  | nil => rfl
  | cons r rs ih =>
      have hprescribed : prescribed (r :: rs) = r.calls ++ prescribed rs := rfl
      rw [hprescribed, View.calls_append, View.calls_record, ih]
      rfl

/-! ## What fits -/

/-- The texts of the call fit their buffers on a screen of this width. -/
def Call.Fits (cols : ℕ) : Call → Prop
  | .doInterface interface localIp remoteIp =>
      32 + (cString interface).length + (cString localIp).length + (cString remoteIp).length ≤ cols
  | .doState state => LinkFits state
  | .doPacket _ _ _ _ _ ttl => (cString ttl).length = 8
  | _ => True

/-- The calls fit, and no queue has more packets than an `int` counts. -/
def CallsFit (cols : ℕ) : View → List Call → Prop
  | _, [] => True
  | v, call :: calls =>
      call.Fits cols ∧ ((v.call call).queue.length : Int) ≤ intMax ∧
        CallsFit cols (v.call call) calls

def Record.Fits (cols : ℕ) : Record → Prop
  | .report r => r.call.Fits cols
  | .queue packets => (packets.length : Int) ≤ intMax

theorem callsFit_append {cols : ℕ} {v : View} {calls later : List Call} :
    CallsFit cols v (calls ++ later) ↔
      CallsFit cols v calls ∧ CallsFit cols (v.calls calls) later := by
  induction calls generalizing v with
  | nil => simp [CallsFit, View.calls]
  | cons call calls ih =>
      have hcalls : v.calls (call :: calls) = (v.call call).calls calls := rfl
      rw [List.cons_append, CallsFit, CallsFit, ih, hcalls]
      simp only [and_assoc]

theorem Clock.cString_text_length (t : Clock) : (cString t.text).length = 8 := by
  have hdigit : ∀ i, nul ≠ digit i := by decide
  have hnul : nul ∉ t.text := by
    simp [Clock.text, hdigit, show nul ≠ colon by decide]
  rw [cString_of_notMem hnul]
  rfl

theorem callsFit_packets
    {cols : ℕ} {v : View} {packets : List Packet}
    (h : ((v.queue.length + packets.length : ℕ) : Int) ≤ intMax) :
    CallsFit cols v (packets.map Packet.call) := by
  induction packets generalizing v with
  | nil => trivial
  | cons p packets ih =>
      have hlength : (v.call p.call).queue.length = v.queue.length + 1 := by
        simp [View.call, Packet.call]
      rw [List.length_cons] at h
      refine ⟨p.ttl.cString_text_length, ?_, ih ?_⟩
      · rw [hlength]
        push_cast at h ⊢
        omega
      · rw [hlength]
        push_cast at h ⊢
        omega

theorem Record.Fits.callsFit
    {cols : ℕ} {r : Record} (h : r.Fits cols) {v : View} (hv : (v.queue.length : Int) ≤ intMax) :
    CallsFit cols v r.calls ∧ ((v.record r).queue.length : Int) ≤ intMax := by
  cases r with
  | report r =>
      have hqueue : ((v.call r.call).queue.length : Int) ≤ intMax := by
        cases r <;> exact hv
      exact ⟨⟨h, hqueue, trivial⟩, hqueue⟩
  | queue packets =>
      have hqueue : ((v.record (.queue packets)).queue.length : Int) ≤ intMax := by
        rw [View.record, List.length_map]
        exact h
      have hnone : ((v.call .doQueue).queue.length : Int) ≤ intMax := by
        rw [show (v.call .doQueue).queue = [] from rfl, List.length_nil]
        decide
      refine ⟨⟨trivial, hnone, callsFit_append.mpr ⟨callsFit_packets ?_, trivial, ?_, trivial⟩⟩,
        hqueue⟩
      · change ((0 + packets.length : ℕ) : Int) ≤ intMax
        rw [Nat.zero_add]
        exact h
      · rw [View.calls_packets]
        change ((([] : List PacketCall) ++ packets.map Packet.packetCall).length : Int) ≤ intMax
        rw [List.nil_append, List.length_map]
        exact h

theorem callsFit_prescribed
    {cols : ℕ} {rs : List Record} (h : ∀ r ∈ rs, r.Fits cols) {v : View}
    (hv : (v.queue.length : Int) ≤ intMax) : CallsFit cols v (prescribed rs) := by
  induction rs generalizing v with
  | nil => trivial
  | cons r rs ih =>
      rw [List.forall_mem_cons] at h
      have hprescribed : prescribed (r :: rs) = r.calls ++ prescribed rs := rfl
      have hfirst := h.1.callsFit hv
      rw [hprescribed, callsFit_append, View.calls_record]
      exact ⟨hfirst.1, ih h.2 hfirst.2⟩

/-! ## Names and rows -/

/-- The name of a host is its address, or what the name service has answered for it. -/
def NameOf (queries : List Query) (aaddr name : List Byte) : Prop :=
  name = aaddr ∨ ∃ q ∈ queries, inetPton aaddr = some q.addr ∧
    ∃ r, q.entry = some r ∧ (name = r.name ∨ name = r.trunc)

/-- A row has the fields of the packet, with names of its hosts and its services. -/
def RowOf (services : Int → List Byte → Option (List Byte)) (cols : ℕ) (queries : List Query)
    (p : PacketCall) (text : List Byte) : Prop :=
  ∃ (env : Lookups) (name1 name2 : List Byte), env.getservbyport = services ∧
    NameOf queries p.ip1 name1 ∧ NameOf queries p.ip2 name2 ∧
      text = packetText (nameWidth cols) p.protocol name1 (service env p.port1 p.protocol) name2
        (service env p.port2 p.protocol) p.ttl

theorem NameOf.mono {queries : List Query} {aaddr name : List Byte} (h : NameOf queries aaddr name)
    (later : List Query) : NameOf (queries ++ later) aaddr name := by
  rcases h with heq | ⟨q, hq, hanswer⟩
  · exact Or.inl heq
  · exact Or.inr ⟨q, List.mem_append_left _ hq, hanswer⟩

theorem RowOf.mono
    {services : Int → List Byte → Option (List Byte)} {cols : ℕ} {queries : List Query}
    {p : PacketCall} {text : List Byte} (h : RowOf services cols queries p text)
    (later : List Query) : RowOf services cols (queries ++ later) p text := by
  rcases h with ⟨env, name1, name2, hservices, hname1, hname2, htext⟩
  exact ⟨env, name1, name2, hservices, hname1.mono later, hname2.mono later, htext⟩

theorem RowOf.complete
    {services : Int → List Byte → Option (List Byte)} {cols : ℕ} {queries : List Query}
    {p : PacketCall} {text : List Byte} (h : RowOf services cols queries p text) : nul ∉ text := by
  rcases h with ⟨env, name1, name2, _, _, _, rfl⟩
  have hconstants : nul ∉ bytes " " ∧ nul ∉ bytes "/" ∧ nul ∉ bytes "  " ∧ nul ∉ [newline] := by
    decide
  simp only [packetText, List.mem_append, not_or]
  simp only [hconstants, nul_notMem_cutField, nul_notMem_cString, nul_notMem_service,
    not_false_eq_true, and_self]

theorem exists_query_of_latest
    {queries : List Query} {addr : BitVec 32} {r : HostRec} (h : latest queries addr = some r) :
    ∃ q ∈ queries, q.addr = addr ∧ q.entry = some r := by
  rcases List.mem_filterMap.mp (List.mem_of_getLast? h) with ⟨q, hq, hentry⟩
  rw [List.mem_filter, decide_eq_true_iff] at hq
  exact ⟨q, hq.1, hq.2, hentry⟩

theorem exists_queries_resolve (w : World) (aaddr : List Byte) (t : HostTable) :
    ∃ later, (resolve w aaddr t).2.queries = t.queries ++ later := by
  have hlearns := resolve_learns w aaddr t
  generalize (resolve w aaddr t).2 = t' at hlearns ⊢
  cases hlearns with
  | nothing => exact ⟨[], (List.append_nil _).symm⟩
  | transient _ _ _ _ _ hqueries => exact ⟨_, hqueries⟩
  | definitive _ _ _ _ _ hqueries => exact ⟨_, hqueries⟩

theorem nameOf_resolve {t : HostTable} (h : Refines t) (w : World) (aaddr : List Byte) :
    NameOf (resolve w aaddr t).2.queries aaddr (resolve w aaddr t).1 := by
  have hname := h.name_eq w aaddr
  by_cases haddress : ShowsAddress w aaddr t
  · exact Or.inl (hname.1 haddress)
  · rcases hname.2 haddress with ⟨addr, haddr, heq⟩
    rw [heq, nameIn]
    cases hlatest : latest (resolve w aaddr t).2.queries addr with
    | none => exact Or.inl rfl
    | some r =>
        rcases exists_query_of_latest hlatest with ⟨q, hq, rfl, hentry⟩
        refine Or.inr ⟨q, hq, haddr, r, hentry, ?_⟩
        change w.shows r = r.name ∨ w.shows r = r.trunc
        unfold World.shows
        split
        · exact Or.inr rfl
        · exact Or.inl rfl

/-- What the two calls of `resolve` for a packet find. -/
theorem resolveBoth_names
    {s : Screen} (h : Refines s.hosts) (env : Lookups) (p : PacketCall) :
    Refines (resolveBoth env p s).2.2 ∧
      (∃ later, (resolveBoth env p s).2.2.queries = s.hosts.queries ++ later) ∧
      NameOf (resolveBoth env p s).2.2.queries p.ip1 (resolveBoth env p s).1 ∧
      NameOf (resolveBoth env p s).2.2.queries p.ip2 (resolveBoth env p s).2.1 := by
  have htwo : ∀ (w : World) (first second : List Byte),
      let called := resolve w first s.hosts
      let called' := resolve w second called.2
      Refines called'.2 ∧ (∃ later, called'.2.queries = s.hosts.queries ++ later) ∧
        NameOf called'.2.queries first called.1 ∧ NameOf called'.2.queries second called'.1 := by
    intro w first second called called'
    have hfirst : Refines called.2 := h.resolve w first
    rcases exists_queries_resolve w first s.hosts with ⟨more, hmore⟩
    rcases exists_queries_resolve w second called.2 with ⟨later, hlater⟩
    have hname : NameOf called.2.queries first called.1 := nameOf_resolve h w first
    refine ⟨hfirst.resolve w second, ⟨more ++ later, ?_⟩, ?_, nameOf_resolve hfirst w second⟩
    · rw [hlater, hmore, List.append_assoc]
    · rw [hlater]
      exact hname.mono later
  unfold resolveBoth
  dsimp only
  split
  · exact htwo _ p.ip1 p.ip2
  · rcases htwo { env.world with currState := s.currState, now := s.now } p.ip2 p.ip1 with
      ⟨hrefines, hqueries, hname2, hname1⟩
    exact ⟨hrefines, hqueries, hname1, hname2⟩

theorem rowOf_packetText
    {s : Screen} (h : Refines s.hosts) (env : Lookups) (p : PacketCall) (cols : ℕ) :
    RowOf env.getservbyport cols (resolveBoth env p s).2.2.queries p
      (s.packetText env p (nameWidth cols)) := by
  rcases resolveBoth_names h env p with ⟨_, _, hname1, hname2⟩
  exact ⟨env, _, _, rfl, hname1, hname2, rfl⟩

/-! ## Lengths of texts -/

theorem decimal_length_le {n k : ℕ} (hk : 0 < k) (h : n < 10 ^ k) : (decimal n).length ≤ k := by
  rw [decimal, List.length_map]
  exact (Nat.length_toDigits_le_iff (by decide) hk).mpr h

theorem countLine_fits {count : ℕ} (h : (count : Int) ≤ intMax) :
    (countLine count).length + 1 ≤ lineLength := by
  have hmax : intMax = 2147483647 := rfl
  have hdigits : (decimal count).length ≤ 10 := decimal_length_le (by decide) (by omega)
  have hconstants : (bytes "   Packets Queued:  ").length = 20 ∧ (bytes "   ").length = 3 := by
    decide
  simp only [countLine, List.length_append, hconstants, lineLength]
  omega

theorem interfaceFormat_fits {cols spcs : ℕ} (hcols : 38 ≤ cols) (hspcs : spcs < 1000) :
    (interfaceFormat spcs).length + 1 ≤ cols := by
  have hdigits : (decimal spcs).length ≤ 3 := decimal_length_le (by decide) hspcs
  have hprinted : printInt spcs = decimal spcs := by
    rw [printInt, if_neg (by omega), Int.natAbs_natCast]
  have hconstants : (bytes "%-s%s%").length = 6 ∧ (bytes "s%-s%s%").length = 7 ∧
      (bytes "s%-s%s").length = 6 := by
    decide
  simp only [interfaceFormat, List.length_append, hconstants, hprinted]
  omega

/-! ## The client shows a view -/

section Shows

variable (services : Int → List Byte → Option (List Byte))

/-- The rows are those of the first packets of the queue. -/
def Rows (cols : ℕ) (queries : List Query) (queue : List PacketCall)
    (texts : List (List Byte)) : Prop :=
  List.Forall₂ (RowOf services cols queries) (queue.take texts.length) texts

structure Client.Shows (c : Client) (v : View) : Prop where
  hosts : Refines c.screen.hosts
  currState : c.screen.currState = v.link
  linkFits : nul ∉ v.link ∧ LinkFits v.link
  loads : c.loads = loadsAfter v.loads
  interface : c.interface = match v.interface with
    | some (interface, localIp, remoteIp) =>
        [(0, interfaceLine c.screen.terminal.cols interface localIp remoteIp)]
    | none => []
  message : c.message = match v.message with
    | some text => [(0, messageLine c.screen.terminal.cols text)]
    | none => []
  rows : ∃ texts, c.screen.Holds v.queue.length texts ∧
    Rows services c.screen.terminal.cols c.screen.hosts.queries v.queue texts
  countFits : (v.queue.length : Int) ≤ intMax

/-- The list of packets in `sub`, whose rows behind the texts are empty. -/
def packetList (numbuff : ℕ) (queue : List PacketCall) (texts : List (List Byte)) : List Printed :=
  if queue = [] then [{ y := 0, x := 5, text := bytes "No packets queued\n" }]
  else printed (min numbuff queue.length) texts

/-- What the redisplay prints. -/
structure Client.Displays (c : Client) (v : View) : Prop where
  link : c.link = [(0, stateLine v.link),
    (centred c.screen.terminal.cols (countLine v.queue.length).length, countLine v.queue.length)]
  sub : ∃ texts, texts.length = min v.queue.length (c.screen.terminal.lines - headLines + 1) ∧
    Rows services c.screen.terminal.cols c.screen.hosts.queries v.queue texts ∧
    c.sub = packetList c.screen.numbuff v.queue texts

end Shows

theorem Screen.Holds.withState {s : Screen} {k : ℕ} {texts : List (List Byte)} (h : s.Holds k texts)
    (state : List Byte) : ({ s with currState := state } : Screen).Holds k texts where
  fixed :=
    { allocated := h.fixed.allocated.of_rows rfl rfl rfl rfl
      lines_ge := h.fixed.lines_ge
      lines_le := h.fixed.lines_le
      cols_ge := h.fixed.cols_ge
      cols_le := h.fixed.cols_le
      format_eq := h.fixed.format_eq }
  count_eq := h.count_eq
  length_eq := h.length_eq
  rows := h.rows

section Rows

variable {services : Int → List Byte → Option (List Byte)} {cols : ℕ} {queries : List Query}
  {queue : List PacketCall} {texts : List (List Byte)}

theorem Rows.mono (h : Rows services cols queries queue texts) (later : List Query) :
    Rows services cols (queries ++ later) queue texts :=
  h.imp fun _ _ hrow => hrow.mono later

theorem Rows.hidden (h : Rows services cols queries queue texts)
    (hlength : texts.length ≤ queue.length) (p : PacketCall) :
    Rows services cols queries (queue ++ [p]) texts := by
  rw [Rows, List.take_append_of_le_length hlength]
  exact h

theorem Rows.shown (h : Rows services cols queries queue texts)
    (hlength : texts.length = queue.length) {p : PacketCall} {text : List Byte}
    (hrow : RowOf services cols queries p text) :
    Rows services cols queries (queue ++ [p]) (texts ++ [text]) := by
  have htake : (queue ++ [p]).take (texts ++ [text]).length = queue ++ [p] := by
    apply List.take_of_length_le
    simp [hlength]
  have hall : queue.take texts.length = queue := List.take_of_length_le hlength.ge
  rw [Rows, htake]
  rw [Rows, hall] at h
  exact List.rel_append h (.cons hrow .nil)

theorem Rows.complete (h : Rows services cols queries queue texts) :
    ∀ text ∈ texts, nul ∉ text := by
  rw [Rows] at h
  generalize queue.take texts.length = shown at h
  induction h with
  | nil => simp
  | cons hrow _ ih =>
      rw [List.forall_mem_cons]
      exact ⟨hrow.complete, ih⟩

/-- A packet which arrives for a queue which the screen shows. -/
theorem Screen.Holds.doPacket_rows
    {s : Screen} {k : ℕ} (h : s.Holds k texts) (hhosts : Refines s.hosts)
    (hrows : Rows services s.terminal.cols s.hosts.queries queue texts) (hk : queue.length = k)
    {env : Lookups} (hservices : env.getservbyport = services) {p : PacketCall}
    (htime : (cString p.ttl).length = 8) (hint : (k : Int) < intMax) :
    ∃ s' texts', Monitor.doPacket env p s = .ok s' ∧ s'.terminal = s.terminal ∧
      s'.currState = s.currState ∧ Refines s'.hosts ∧ s'.Holds (k + 1) texts' ∧
      Rows services s.terminal.cols s'.hosts.queries (queue ++ [p]) texts' := by
  rcases h.doPacket { env := env, packet := p } htime hint with ⟨s', hok, hterminal, hholds⟩
  have hlength : texts.length ≤ queue.length := by
    rw [h.length_eq, hk]
    exact min_le_left _ _
  have hstep := doPacket_step h.fixed.allocated env p
  rw [show Monitor.doPacket env p s = .ok s' from hok] at hstep
  refine ⟨s', texts ++ s.shownTexts { env := env, packet := p }, hok, hterminal, ?_⟩
  cases hstep with
  | hidden hshown =>
      refine ⟨rfl, hhosts, hholds, ?_⟩
      rw [Screen.shownTexts, if_neg hshown, List.append_nil]
      exact hrows.hidden hlength p
  | filled hshown _ _ _ _ =>
      rcases resolveBoth_names hhosts env p with ⟨hrefines, ⟨later, hlater⟩, _⟩
      refine ⟨rfl, hrefines, hholds, ?_⟩
      have hall : texts.length = queue.length := by
        have hlt := h.fixed.shown_iff.mp hshown
        rw [h.length_eq, hk, ← h.count_eq]
        omega
      rw [Screen.shownTexts, if_pos hshown]
      apply Rows.shown _ hall
      · rw [← hservices]
        exact rowOf_packetText hhosts env p s.terminal.cols
      · change Rows services _ (resolveBoth env p s).2.2.queries queue texts
        rw [hlater]
        exact hrows.mono later

end Rows

section Calls

variable {services : Int → List Byte → Option (List Byte)} {c : Client} {v : View}

theorem Client.Shows.doState
    (h : c.Shows services v) {state : List Byte} (hfits : LinkFits state) :
    ∃ c', c.doState state = .ok c' ∧ c'.screen.terminal = c.screen.terminal ∧
      c'.Shows services { v with link := cString state } ∧
      c'.link = [(0, stateLine (cString state)),
        (centred c'.screen.terminal.cols (countLine v.queue.length).length,
          countLine v.queue.length)] ∧ c'.sub = c.sub := by
  rcases h.rows with ⟨texts, hholds, hrows⟩
  have hcount : (countLine c.screen.count).length + 1 ≤ lineLength := by
    rw [hholds.count_eq]
    exact countLine_fits h.countFits
  rcases (doState_eq_ok_iff state c.screen).mpr ⟨hfits, hcount⟩ with ⟨s, hs⟩
  have heq := doState_eq_ok hs
  have hstate : c.doState state = .ok { c with
      screen := s
      link := [(0, stateLine s.currState),
        (centred s.terminal.cols (countLine s.count).length, countLine s.count)] } := by
    rw [Client.doState, hs]
    rfl
  refine ⟨_, hstate, ?_, ?_, ?_, rfl⟩
  · rw [heq]
  · subst heq
    exact
      { hosts := h.hosts
        currState := rfl
        linkFits := ⟨nul_notMem_cString state, (linkFits_cString state).mpr hfits⟩
        loads := h.loads
        interface := h.interface
        message := h.message
        rows := ⟨texts, hholds.withState _, hrows⟩
        countFits := h.countFits }
  · subst heq
    rw [← hholds.count_eq]

theorem Client.Shows.doLoad (h : c.Shows services v) (itxtotal irxtotal : Int) :
    (c.doLoad itxtotal irxtotal).Shows services
      { v with loads := v.loads ++ [⟨itxtotal, irxtotal⟩] } where
  hosts := h.hosts
  currState := h.currState
  linkFits := h.linkFits
  loads := by
    rw [Client.doLoad, h.loads, loadsAfter_append]
  interface := h.interface
  message := h.message
  rows := h.rows
  countFits := h.countFits

theorem Client.Shows.doMessage (h : c.Shows services v) (message : List Byte) :
    (c.doMessage message).Shows services { v with message := some (cString message) } where
  hosts := h.hosts
  currState := h.currState
  linkFits := h.linkFits
  loads := h.loads
  interface := h.interface
  message := rfl
  rows := h.rows
  countFits := h.countFits

theorem Client.Shows.doInterface
    (h : c.Shows services v) {interface localIp remoteIp : List Byte}
    (hfits : 32 + (cString interface).length + (cString localIp).length +
      (cString remoteIp).length ≤ c.screen.terminal.cols) :
    ∃ c', c.doInterface interface localIp remoteIp = .ok c' ∧
      c'.screen.terminal = c.screen.terminal ∧ c'.Shows services
        { v with interface := some (cString interface, cString localIp, cString remoteIp) } := by
  rcases h.rows with ⟨texts, hholds, hrows⟩
  have hcols_ge := hholds.fixed.cols_ge
  have hcols_le := hholds.fixed.cols_le
  have hcols : (c.screen.terminal.cols : Int) ≤ intMax := by
    have hmax : intMax = 2147483647 := rfl
    omega
  have hformat : ¬ c.screen.terminal.cols < (interfaceFormat (interfaceSpaces c.screen.terminal.cols
      (cString interface) (cString localIp) (cString remoteIp))).length + 1 := by
    rw [interfaceSpaces_of_fits hcols hfits, not_lt]
    exact interfaceFormat_fits hcols_ge (by omega)
  have hline := interfaceLine_length_lt_room hcols hfits
  have hinterface : c.doInterface interface localIp remoteIp = .ok { c with
      interface := [(0, interfaceLine c.screen.terminal.cols (cString interface) (cString localIp)
        (cString remoteIp))] } := by
    rw [Client.doInterface, if_neg hformat, if_neg (not_lt.mpr hline)]
  refine ⟨_, hinterface, rfl, ?_⟩
  exact
    { hosts := h.hosts
      currState := h.currState
      linkFits := h.linkFits
      loads := h.loads
      interface := rfl
      message := h.message
      rows := ⟨texts, hholds, hrows⟩
      countFits := h.countFits }

theorem Client.Shows.doQueue (h : c.Shows services v) (now : Int) :
    ∃ c', c.doQueue now = .ok c' ∧ c'.screen.terminal = c.screen.terminal ∧
      c'.Shows services { v with queue := [] } := by
  rcases h.rows with ⟨texts, hholds, _⟩
  have hqueue : c.doQueue now = .ok { c with screen := c.screen.cleared now, sub := [] } := by
    rw [Client.doQueue, doQueue_eq now hholds.fixed.allocated]
    rfl
  refine ⟨_, hqueue, rfl, ?_⟩
  exact
    { hosts := h.hosts
      currState := h.currState
      linkFits := h.linkFits
      loads := h.loads
      interface := h.interface
      message := h.message
      rows := ⟨[], hholds.fixed.holds_nil now, .nil⟩
      countFits := show ((0 : ℕ) : Int) ≤ intMax by decide }

theorem Client.Shows.doPacket
    (h : c.Shows services v) (m : Moment) {p : PacketCall} (htime : (cString p.ttl).length = 8)
    (hcount : ((v.queue ++ [p]).length : Int) ≤ intMax) :
    ∃ c', c.doPacket services m p = .ok c' ∧ c'.screen.terminal = c.screen.terminal ∧
      c'.Shows services { v with queue := v.queue ++ [p] } := by
  rcases h.rows with ⟨texts, hholds, hrows⟩
  have hservices : (c.lookups services m).getservbyport = services := rfl
  have hint : (v.queue.length : Int) < intMax := by
    rw [List.length_append, List.length_singleton] at hcount
    omega
  rcases hholds.doPacket_rows h.hosts hrows rfl hservices htime hint with
    ⟨s, texts', hok, hterminal, hstate, hhosts, hholds', hrows'⟩
  have hpacket : c.doPacket services m p = .ok { c with screen := s } := by
    rw [Client.doPacket, hok]
    rfl
  refine ⟨_, hpacket, hterminal, ?_⟩
  exact
    { hosts := hhosts
      currState := hstate.trans h.currState
      linkFits := h.linkFits
      loads := h.loads
      interface := by
        rw [hterminal]
        exact h.interface
      message := by
        rw [hterminal]
        exact h.message
      rows := by
        rw [List.length_append]
        exact ⟨texts', hholds', by rw [hterminal]; exact hrows'⟩
      countFits := hcount }

/-- A call which fits shows what it says. -/
theorem Client.Shows.call
    (h : c.Shows services v) {call : Call} (hfits : call.Fits c.screen.terminal.cols)
    (hcount : ((v.call call).queue.length : Int) ≤ intMax) (m : Moment) :
    ∃ c', c.call services m call = .ok c' ∧ c'.screen.terminal = c.screen.terminal ∧
      c'.Shows services (v.call call) := by
  cases call with
  | doStatus => exact ⟨c, rfl, rfl, h⟩
  | doLoad itxtotal irxtotal => exact ⟨_, rfl, rfl, h.doLoad itxtotal irxtotal⟩
  | doInterface interface localIp remoteIp => exact h.doInterface hfits
  | doState state =>
      rcases h.doState hfits with ⟨c', hok, hterminal, hshows, _⟩
      exact ⟨c', hok, hterminal, hshows⟩
  | doMessage message => exact ⟨_, rfl, rfl, h.doMessage message⟩
  | doQueue => exact h.doQueue m.now
  | doPacket protocol ip1 port1 ip2 port2 ttl => exact h.doPacket m hfits hcount
  | doEndqueue => exact ⟨c, rfl, rfl, h⟩

/-- The redisplay prints the link and the queue. -/
theorem Client.Shows.redisplay (h : c.Shows services v) :
    ∃ c', c.redisplay = .ok c' ∧ c'.screen.terminal = c.screen.terminal ∧ c'.Shows services v ∧
      c'.Displays services v := by
  have hlink : cString v.link = v.link := cString_of_notMem h.linkFits.1
  rcases h.doState h.linkFits.2 with ⟨c', hok, hterminal, hshows, hprinted, _⟩
  rw [hlink] at hshows hprinted
  rcases hshows.rows with ⟨texts, hholds, hrows⟩
  have hpackets : printPackets c'.screen =
      .ok (packetList c'.screen.numbuff v.queue texts) := by
    unfold packetList
    by_cases hempty : v.queue = []
    · have hcount : c'.screen.count = 0 := by
        rw [hholds.count_eq, hempty]
        rfl
      rw [if_pos hempty, printPackets, if_pos hcount]
    · rw [if_neg hempty]
      exact hholds.printPackets (List.length_pos_iff.mpr hempty) hrows.complete
  have hredisplay : c.redisplay =
      .ok { c' with sub := packetList c'.screen.numbuff v.queue texts } := by
    rw [Client.redisplay, h.currState, hok]
    change (printPackets c'.screen).bind _ = _
    rw [hpackets]
    rfl
  refine ⟨_, hredisplay, hterminal, ?_, ?_⟩
  · exact
      { hosts := hshows.hosts
        currState := hshows.currState
        linkFits := hshows.linkFits
        loads := hshows.loads
        interface := hshows.interface
        message := hshows.message
        rows := hshows.rows
        countFits := hshows.countFits }
  · exact
      { link := hprinted
        sub := ⟨texts, hholds.length_eq, hrows, rfl⟩ }

/-- Whatever is redrawn in between, the client shows what the calls say. -/
theorem Client.Shows.run
    (h : c.Shows services v) {ops : List ClientOp}
    (hfits : CallsFit c.screen.terminal.cols v (ops.filterMap ClientOp.made)) :
    ∃ c', runSteps (Client.perform services) ops c = .ok c' ∧
      c'.screen.terminal = c.screen.terminal ∧
      c'.Shows services (v.calls (ops.filterMap ClientOp.made)) := by
  induction ops generalizing c v with
  | nil => exact ⟨c, rfl, rfl, h⟩
  | cons op ops ih =>
      cases op with
      | call m made =>
          rcases hfits with ⟨hcall, hcount, hlater⟩
          rcases h.call hcall hcount m with ⟨c₁, hok, hterminal, hshows⟩
          rw [← hterminal] at hlater
          rcases ih hshows hlater with ⟨c', hrun, hterminal', hshows'⟩
          exact ⟨c', by rw [runSteps_cons_of_ok hok, hrun], hterminal'.trans hterminal, hshows'⟩
      | redisplay =>
          rcases h.redisplay with ⟨c₁, hok, hterminal, hshows, _⟩
          have hlater : CallsFit c₁.screen.terminal.cols v (ops.filterMap ClientOp.made) := by
            rw [hterminal]
            exact hfits
          rcases ih hshows hlater with ⟨c', hrun, hterminal', hshows'⟩
          have hfirst : Client.perform services .redisplay c = .ok c₁ := hok
          exact ⟨c', by rw [runSteps_cons_of_ok hfirst, hrun], hterminal'.trans hterminal, hshows'⟩
      | help =>
          have hcleared : ({ c with sub := [] } : Client).Shows services v :=
            ⟨h.hosts, h.currState, h.linkFits, h.loads, h.interface, h.message, h.rows, h.countFits⟩
          rcases ih hcleared hfits with ⟨c', hrun, hterminal', hshows'⟩
          have hfirst : Client.perform services .help c = .ok { c with sub := [] } := rfl
          exact ⟨c', by rw [runSteps_cons_of_ok hfirst, hrun], hterminal', hshows'⟩

/-- When the calls are those of the records, the last redisplay shows the records. -/
theorem Client.Shows.run_records
    (h : c.Shows services v) {rs : List Record}
    (hfits : ∀ r ∈ rs, r.Fits c.screen.terminal.cols) {ops : List ClientOp}
    (hops : ops.filterMap ClientOp.made = prescribed rs) :
    ∃ c', runSteps (Client.perform services) (ops ++ [.redisplay]) c = .ok c' ∧
      c'.screen.terminal = c.screen.terminal ∧ c'.Shows services (v.records rs) ∧
      c'.Displays services (v.records rs) := by
  have hcalls : CallsFit c.screen.terminal.cols v (ops.filterMap ClientOp.made) := by
    rw [hops]
    exact callsFit_prescribed hfits h.countFits
  rcases h.run hcalls with ⟨c₁, hrun, hterminal, hshows⟩
  rw [hops, View.calls_prescribed] at hshows
  rcases hshows.redisplay with ⟨c', hok, hterminal', hshows', hdisplays⟩
  have hlast : Client.perform services .redisplay c₁ = .ok c' := hok
  refine ⟨c', ?_, hterminal'.trans hterminal, hshows', hdisplays⟩
  rw [runSteps_append_of_ok hrun, runSteps_cons_of_ok hlast]
  rfl

end Calls

/-! ## From the FIFO to the screen -/

/-- The size of the terminal is within the limits. -/
structure Terminal.WithinLimits (t : Terminal) : Prop where
  lines_ge : headLines ≤ t.lines
  lines_le : t.lines ≤ 264
  cols_ge : 38 ≤ t.cols
  cols_le : t.cols ≤ 512

theorem Client.started_shows
    (services : Int → List Byte → Option (List Byte)) {t : Terminal} (ht : t.WithinLimits)
    (garbage : Garbage) : (Client.started t garbage).Shows services .initial where
  hosts := refines_empty
  currState := rfl
  linkFits := ⟨List.not_mem_nil, linkFits_nil⟩
  loads := rfl
  interface := rfl
  message := rfl
  rows := by
    have hfixed : (Screen.started t garbage).Fixed :=
      Screen.started_fixed garbage ht.lines_ge ht.lines_le ht.cols_ge ht.cols_le
    have hrow : ∀ i < (Screen.started t garbage).numbuff,
        (Screen.started t garbage).scrbuff i = some (freshRow t.cols (garbage i)) :=
      fun i hi => if_pos hi
    refine ⟨[], ?_, .nil⟩
    exact
      { fixed := hfixed
        count_eq := rfl
        length_eq := by simp [View.initial]
        rows := fun i hi => ⟨_, hrow i hi, ⟨(List.range t.cols).map (garbage i), rfl⟩⟩ }
  countFits := by decide

end Monitor

/-- From the FIFO to the screen: what diald has written while the client was
monitoring, with the messages of the server in between, is what the client
displays. -/
theorem display_of_session
    {fd : Int} {s next : Server} {rs : List Monitor.Record} (hreachable : Reachable s)
    (hsession : Session fd s rs next) {t : Monitor.Terminal} (ht : t.WithinLimits)
    (hfits : ∀ r ∈ rs, r.Fits t.cols) :
    ∃ events ds, next.trace = s.trace ++ events ∧ relayedRecords ds = rs ∧
      ∀ (w : Monitor.Surroundings) (input : List (Scanner.Arrival Byte)),
        Monitor.received input = delivered fd events →
          Monitor.TimesOutBetweenParts (records ds) input →
            ∃ n, ∀ fuel, n ≤ fuel → ∃ calls,
              Monitor.madeCalls (Monitor.readToEof w fuel (.start input) .none) = some calls ∧
              ∀ (services : Int → List Byte → Option (List Byte)) (garbage : Monitor.Garbage)
                (ops : List Monitor.ClientOp), ops.filterMap Monitor.ClientOp.made = calls →
                  ∃ c, runSteps (Monitor.Client.perform services) (ops ++ [.redisplay])
                      (Monitor.Client.started t garbage) = .ok c ∧
                    c.Shows services (Monitor.View.initial.records (records ds)) ∧
                    c.Displays services (Monitor.View.initial.records (records ds)) := by
  rcases hsession.receives hreachable.serverInv with ⟨events, ds, htrace, hdelivered, hrelayed⟩
  refine ⟨events, ds, htrace, hrelayed, fun w input hinput hbetween => ?_⟩
  rcases Monitor.exists_calls (hinput.trans hdelivered) hbetween w with ⟨n, hn⟩
  refine ⟨n, fun fuel hfuel => ⟨_, (hn fuel hfuel).1, fun services garbage ops hops => ?_⟩⟩
  have hall : ∀ r ∈ records ds, r.Fits t.cols := by
    intro r hr
    rcases List.mem_map.mp hr with ⟨d, hd, rfl⟩
    cases d with
    | own line => trivial
    | relayed r =>
        apply hfits
        rw [← hrelayed]
        exact List.mem_filterMap.mpr ⟨_, hd, rfl⟩
  have hstarted : (Monitor.Client.started t garbage).Shows services .initial :=
    Monitor.Client.started_shows services ht garbage
  rcases hstarted.run_records hall hops with ⟨c, hrun, _, hshows, hdisplays⟩
  exact ⟨c, hrun, hshows, hdisplays⟩

/-- The user looks at the help in between. -/
theorem display_of_session_hello :
    let s := finalState ((start .obliging).run .blank)
    let next := finalState
      ((fifoServer (.relaying Monitor.hello.text []) 3).run .watched)
    let moment : Monitor.Moment :=
      { now := 0, world := Monitor.Lookups.unnamed.world, ip1First := true }
    ∃ events ds, next.trace = s.trace ++ events ∧ relayedRecords ds = [Monitor.hello] ∧
      ∃ n, ∀ fuel, n ≤ fuel → ∃ calls c,
        Monitor.madeCalls (Monitor.readToEof Monitor.quiet fuel (.start helloArrivals) .none) =
            some calls ∧
          runSteps (Monitor.Client.perform fun _ _ => none)
              (.help :: calls.map (.call moment) ++ [.redisplay])
              (Monitor.Client.started { lines := 24, cols := 80 } fun _ _ => 255) = .ok c ∧
          c.Shows (fun _ _ => none) (Monitor.View.initial.records (records ds)) ∧
          c.Displays (fun _ _ => none) (Monitor.View.initial.records (records ds)) := by
  intro s next moment
  have ht : Monitor.Terminal.WithinLimits { lines := 24, cols := 80 } :=
    ⟨by decide, by decide, by decide, by decide⟩
  have hfits : ∀ r ∈ [Monitor.hello], r.Fits 80 := by
    intro r hr
    rw [List.mem_singleton.mp hr]
    trivial
  rcases display_of_session session_hello.1 session_hello.2 ht hfits with
    ⟨events, ds, htrace, hrelayed, hdisplays⟩
  have hbetween : Monitor.TimesOutBetweenParts (records ds) helloArrivals :=
    Monitor.timesOutBetweenParts_of_data _ (by decide)
  rcases hdisplays Monitor.quiet helloArrivals (received_helloArrivals htrace) hbetween with
    ⟨n, hn⟩
  refine ⟨events, ds, htrace, hrelayed, n, fun fuel hfuel => ?_⟩
  rcases hn fuel hfuel with ⟨calls, hcalls, hops⟩
  have hmade : (Monitor.ClientOp.help :: calls.map (.call moment)).filterMap
      Monitor.ClientOp.made = calls := by
    rw [List.filterMap_cons_none rfl, List.filterMap_map]
    exact List.filterMap_some
  rcases hops (fun _ _ => none) (fun _ _ => 255) _ hmade with ⟨c, hrun, hshows, hdisplays⟩
  exact ⟨calls, c, hcalls, hrun, hshows, hdisplays⟩

end DialdTop
