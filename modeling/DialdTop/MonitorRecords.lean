import DialdTop.MonitorParser

/-!
# Records of the monitor stream

What a well-formed stream consists of, and the calls which it prescribes.  A
record is made of parts, and each part prescribes one call.
-/

namespace DialdTop

namespace Monitor

/-! ## Fields -/

/-- A decimal number below 2^31. -/
structure Numeral where
  digits : List Byte
  nonempty : digits ≠ []
  isDigits : ∀ c ∈ digits, isDigit c = true
  bounded : decimalValue digits < 2147483648

/-- HH:MM:SS. -/
structure Clock where
  hours : Fin 10 × Fin 10
  minutes : Fin 10 × Fin 10
  seconds : Fin 10 × Fin 10

/-- A number of a dotted quad. -/
structure Group where
  digits : List Byte
  nonempty : digits ≠ []
  short : digits.length ≤ 3
  isDigits : ∀ c ∈ digits, isDigit c = true

structure Quad where
  first : Group
  second : Group
  third : Group
  fourth : Group

/-- A port from 1 to 65535 without leading zeros. -/
structure Port where
  first : Byte
  more : List Byte
  isDigits : ∀ c ∈ first :: more, isDigit c = true
  positive : first ≠ 48
  bounded : decimalValue (first :: more) ≤ 65535

def keywords : List (List Byte) :=
  [bytes "STATE", bytes "INTERFACE", bytes "STATUS", bytes "LOAD", bytes "QUEUE",
    bytes "END QUEUE", bytes "MESSAGE"]

structure Word where
  first : Byte
  more : List Byte
  begins : isNondigit first = true ∧ first ≠ slash
  continues : ∀ c ∈ more, isNoslash c = true
  notKeyword : first :: more ∉ keywords

/-- The text of a message. -/
structure Message where
  text : List Byte
  nonempty : text ≠ []
  oneLine : newline ∉ text

def Numeral.value (n : Numeral) : Int := decimalValue n.digits

def Clock.text (t : Clock) : List Byte :=
  [digit t.hours.1, digit t.hours.2, colon, digit t.minutes.1, digit t.minutes.2, colon,
    digit t.seconds.1, digit t.seconds.2]

def Quad.text (q : Quad) : List Byte :=
  q.first.digits ++ dot :: (q.second.digits ++ dot :: (q.third.digits ++ dot :: q.fourth.digits))

def Port.value (p : Port) : Int := decimalValue (p.first :: p.more)

def Port.text (p : Port) : List Byte := slash :: p.first :: p.more

def Word.text (w : Word) : List Byte := w.first :: w.more

/-! ## Records -/

structure Packet where
  protocol : Word
  ip1 : Quad
  port1 : Port
  ip2 : Quad
  port2 : Port
  ttl : Clock

/-- A record other than the queue. -/
inductive Report
  | status (up force im imItm imTm imFuzz : Numeral) (imTo forceTo to_ : Clock)
  | load (itxtotal irxtotal : Numeral)
  | interface (name : Word) (localIp remoteIp : Quad)
  | state (name : Word)
  | message (line : Message)

inductive Record
  | report (r : Report)
  | queue (packets : List Packet)

def Packet.line (p : Packet) : List Byte :=
  p.protocol.text ++ blank :: (p.ip1.text ++ p.port1.text ++
    blank :: (p.ip2.text ++ p.port2.text ++ blank :: p.ttl.text))

def Report.lines : Report → List (List Byte)
  | .status up force im imItm imTm imFuzz imTo forceTo to_ =>
      [bytes "STATUS", up.digits, force.digits, im.digits, imItm.digits, imTm.digits,
        imFuzz.digits, imTo.text, forceTo.text, to_.text]
  | .load itxtotal irxtotal => [bytes "LOAD", itxtotal.digits, irxtotal.digits]
  | .interface name localIp remoteIp =>
      [bytes "INTERFACE", name.text, localIp.text, remoteIp.text]
  | .state name => [bytes "STATE", name.text]
  | .message line => [bytes "MESSAGE", line.text]

def Record.text : Record → List Byte
  | .report r => unlines r.lines
  | .queue packets =>
      unlines (bytes "QUEUE" :: packets.map Packet.line ++ [bytes "END QUEUE"])

def Report.call : Report → Call
  | .status up force im imItm imTm imFuzz imTo forceTo to_ =>
      .doStatus up.value force.value im.value imItm.value imTm.value imFuzz.value imTo.text
        forceTo.text to_.text
  | .load itxtotal irxtotal => .doLoad itxtotal.value irxtotal.value
  | .interface name localIp remoteIp => .doInterface name.text localIp.text remoteIp.text
  | .state name => .doState name.text
  | .message line => .doMessage line.text

def Packet.call (p : Packet) : Call :=
  .doPacket p.protocol.text p.ip1.text p.port1.value p.ip2.text p.port2.value p.ttl.text

def Record.calls : Record → List Call
  | .report r => [r.call]
  | .queue packets => .doQueue :: packets.map Packet.call ++ [.doEndqueue]

/-! ## Parts -/

inductive Part
  | report (r : Report)
  | queue
  | packet (p : Packet)
  | endqueue

def Part.text : Part → List Byte
  | .report r => unlines r.lines
  | .queue => unlines [bytes "QUEUE"]
  | .packet p => unlines [p.line]
  | .endqueue => unlines [bytes "END QUEUE"]

def Part.call : Part → Call
  | .report r => r.call
  | .queue => .doQueue
  | .packet p => p.call
  | .endqueue => .doEndqueue

def Record.parts : Record → List Part
  | .report r => [.report r]
  | .queue packets => .queue :: packets.map .packet ++ [.endqueue]

theorem Record.text_eq (r : Record) : r.text = r.parts.flatMap Part.text := by
  cases r with
  | report r => simp [Record.text, Record.parts, Part.text]
  | queue packets =>
      have hpackets : unlines (packets.map Packet.line) =
          (packets.map Part.packet).flatMap Part.text := by
        induction packets with
        | nil => rfl
        | cons p packets ih =>
            rw [List.map_cons, unlines_cons, ih]
            simp [Part.text]
      rw [Record.text, Record.parts, List.cons_append, unlines_cons, unlines_append, hpackets]
      simp [Part.text]

theorem Record.calls_eq (r : Record) : r.calls = r.parts.map Part.call := by
  cases r with
  | report r => rfl
  | queue packets => simp [Record.calls, Record.parts, Part.call, Function.comp_def]

/-! ## Tokens -/

def symbolToken (kind : TokenKind) : Token := { kind := some kind, value := .undefined }

def numToken (n : Numeral) : Token := { kind := some .num, value := .number n.value }

def timeToken (t : Clock) : Token := { kind := some .time, value := .string t.text }

def ipToken (q : Quad) : Token := { kind := some .ip, value := .string q.text }

def portToken (p : Port) : Token := { kind := some .port, value := .number p.value }

def stringToken (text : List Byte) : Token := { kind := some .string, value := .string text }

/-- A line with a single token. -/
def lineTokens (t : Token) : List Token := [t, symbolToken .newline]

def Report.tokens : Report → List Token
  | .status up force im imItm imTm imFuzz imTo forceTo to_ =>
      lineTokens (symbolToken .status) ++ lineTokens (numToken up) ++ lineTokens (numToken force) ++
        lineTokens (numToken im) ++ lineTokens (numToken imItm) ++ lineTokens (numToken imTm) ++
        lineTokens (numToken imFuzz) ++ lineTokens (timeToken imTo) ++
        lineTokens (timeToken forceTo) ++ lineTokens (timeToken to_)
  | .load itxtotal irxtotal =>
      lineTokens (symbolToken .load) ++ lineTokens (numToken itxtotal) ++
        lineTokens (numToken irxtotal)
  | .interface name localIp remoteIp =>
      lineTokens (symbolToken .interface) ++ lineTokens (stringToken name.text) ++
        lineTokens (ipToken localIp) ++ lineTokens (ipToken remoteIp)
  | .state name => lineTokens (symbolToken .state) ++ lineTokens (stringToken name.text)
  | .message line =>
      lineTokens (symbolToken .message) ++ lineTokens (stringToken line.text)

def Packet.tokens (p : Packet) : List Token :=
  [stringToken p.protocol.text, ipToken p.ip1, portToken p.port1, ipToken p.ip2,
    portToken p.port2, timeToken p.ttl, symbolToken .newline]

def Part.tokens : Part → List Token
  | .report r => r.tokens
  | .queue => lineTokens (symbolToken .queue)
  | .packet p => p.tokens
  | .endqueue => lineTokens (symbolToken .endqueue)

end Monitor

end DialdTop
