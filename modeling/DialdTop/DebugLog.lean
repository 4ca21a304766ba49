import DialdTop.CString
import DialdTop.FaultingRuns

/-!
# The debug log

With `-L` the scanner reads through `yy_log_input`, which prints the buffer after
each read.  Nothing marks the end of what has been read, so that the entry goes on
into what an earlier read has left.
-/

namespace DialdTop

namespace Monitor

/-- What `read` returns: an error, or bytes, of which there are none at the end of
the file. -/
inductive ReadResult
  | failed
  | data (s : List Byte)

/-- A call of `yy_log_input`.  In front of it the scanner arranges its buffer, and
passes a position and a length.  There is no answer when `select` times out. -/
structure LogCall where
  arrange : List Byte → List Byte
  position : ℕ
  maxSize : ℕ
  answer : Option ReadResult
  ticks : Int

structure LogEntry where
  ticks : Int
  payload : List Byte
  deriving DecidableEq, Repr

/-- The memory from `yy_ch_buf` on, `yacc_block`, the entries of the log, and the bytes
which the scanner has got. -/
structure Logging where
  chBuf : List Byte
  yaccBlock : Bool
  entries : List LogEntry
  returned : List Byte
  deriving DecidableEq, Repr

def Logging.start (chBuf : List Byte) : Logging where
  chBuf := chBuf
  yaccBlock := false
  entries := []
  returned := []

/-- Bytes written at a position. -/
def overwrite (memory : List Byte) (position : ℕ) (s : List Byte) : List Byte :=
  memory.take position ++ s ++ memory.drop (position + s.length)

/-- The bytes which `read` has put into the buffer. -/
def ReadResult.bytes : ReadResult → List Byte
  | .failed => []
  | .data s => s

def yyLogInput (call : LogCall) (g : Logging) : Logging :=
  let memory := call.arrange g.chBuf
  match call.answer with
  | none => { g with chBuf := memory, yaccBlock := true }
  | some c =>
      let memory := overwrite memory call.position c.bytes
      { chBuf := memory
        yaccBlock := match c with
          | .failed => true
          | .data _ => false
        entries := g.entries ++
          [{ ticks := call.ticks, payload := cString (memory.drop call.position) }]
        returned := g.returned ++ c.bytes }

def runLog (calls : List LogCall) (g : Logging) : Logging :=
  calls.foldl (fun g call => yyLogInput call g) g

/-- The texts in the log file, without the times. -/
def Logging.payloads (g : Logging) : List Byte := g.entries.flatMap LogEntry.payload

/-- The scanner leaves room for `maxSize` bytes, and at most as many are read, none of
them a NUL. -/
structure LogCall.WellFormed (call : LogCall) : Prop where
  room : ∀ memory, call.position + call.maxSize ≤ (call.arrange memory).length
  short : ∀ c, call.answer = some c → c.bytes.length ≤ call.maxSize
  nul_notMem : ∀ c, call.answer = some c → nul ∉ c.bytes

/-- The memory behind the bytes which the call reads. -/
def LogCall.behind (call : LogCall) (c : ReadResult) (g : Logging) : List Byte :=
  (call.arrange g.chBuf).drop (call.position + c.bytes.length)

/-- A NUL stands behind the bytes which the call reads. -/
def LogCall.Closed (call : LogCall) (g : Logging) : Prop :=
  ∀ c, call.answer = some c → cString (call.behind c g) = []

/-- The calls in their order; none of them fails. -/
abbrev logStep (call : LogCall) (g : Logging) : Except Empty Logging := .ok (yyLogInput call g)

theorem drop_overwrite {memory : List Byte} {position : ℕ} (h : position ≤ memory.length)
    (s : List Byte) :
    (overwrite memory position s).drop position = s ++ memory.drop (position + s.length) := by
  have hlength : (memory.take position).length = position := List.length_take_of_le h
  rw [overwrite, List.append_assoc, List.drop_append_of_le_length hlength.ge,
    List.drop_eq_nil_of_le hlength.le, List.nil_append]

section Run

variable {call : LogCall} {g : Logging}

theorem yyLogInput_timeout (h : call.answer = none) :
    (yyLogInput call g).payloads = g.payloads ∧ (yyLogInput call g).returned = g.returned := by
  simp only [yyLogInput, h, Logging.payloads, and_self]

/-- The entry of a read has the bytes which were read and those behind them. -/
theorem yyLogInput_read {c : ReadResult} (hcall : call.WellFormed) (h : call.answer = some c) :
    (yyLogInput call g).payloads = g.payloads ++ (c.bytes ++ cString (call.behind c g)) ∧
      (yyLogInput call g).returned = g.returned ++ c.bytes := by
  have hroom := hcall.room g.chBuf
  have hpayload : cString ((overwrite (call.arrange g.chBuf) call.position c.bytes).drop
      call.position) = c.bytes ++ cString (call.behind c g) := by
    rw [drop_overwrite (by omega), cString_append (hcall.nul_notMem c h), LogCall.behind]
  simp only [yyLogInput, h, Logging.payloads, List.flatMap_append, List.flatMap_singleton,
    hpayload, and_self]

/-- A run logs at least as many bytes as it returns, and the same bytes exactly when
each of its reads finds a NUL behind it. -/
theorem runLog_spec {calls : List LogCall} (hcalls : ∀ call ∈ calls, call.WellFormed)
    (g : Logging) :
    ∃ logged returned, (runLog calls g).payloads = g.payloads ++ logged ∧
      (runLog calls g).returned = g.returned ++ returned ∧
      returned.length ≤ logged.length ∧
      (logged = returned ↔ EveryStep logStep LogCall.Closed calls g) := by
  induction calls generalizing g with
  | nil => exact ⟨[], [], by simp [runLog], by simp [runLog], le_rfl, by simp⟩
  | cons call calls ih =>
      rw [List.forall_mem_cons] at hcalls
      obtain ⟨logged, returned, hlogged, hreturned, hlength, hiff⟩ :=
        ih hcalls.2 (yyLogInput call g)
      have hrun : runLog (call :: calls) g = runLog calls (yyLogInput call g) := rfl
      have hevery : EveryStep logStep LogCall.Closed (call :: calls) g ↔
          call.Closed g ∧ logged = returned := by
        rw [everyStep_cons, hiff]
        simp
      rw [hrun, hlogged, hreturned]
      cases hanswer : call.answer with
      | none =>
          have hclosed : call.Closed g := by
            intro c hc
            rw [hanswer] at hc
            cases hc
          obtain ⟨hpayloads, hbytes⟩ := yyLogInput_timeout (g := g) hanswer
          rw [hpayloads, hbytes]
          refine ⟨logged, returned, rfl, rfl, hlength, ?_⟩
          rw [hevery, and_iff_right hclosed]
      | some c =>
          have hclosed : call.Closed g ↔ cString (call.behind c g) = [] := by
            simp [LogCall.Closed, hanswer]
          obtain ⟨hpayloads, hbytes⟩ := yyLogInput_read (g := g) hcalls.1 hanswer
          rw [hpayloads, hbytes]
          refine ⟨c.bytes ++ cString (call.behind c g) ++ logged, c.bytes ++ returned,
            by simp, by simp, by simp; omega, ?_⟩
          rw [hevery, hclosed, List.append_assoc, List.append_cancel_left_eq]
          constructor
          · intro heq
            -- The later entries are no shorter than what they return, hence nothing is
            -- left for the bytes behind this read.
            have hnil : cString (call.behind c g) = [] := by
              have hsum := congrArg List.length heq
              rw [List.length_append] at hsum
              exact List.length_eq_zero_iff.mp (by omega)
            rw [hnil, List.nil_append] at heq
            exact ⟨hnil, heq⟩
          · rintro ⟨hnil, heq⟩
            rw [hnil, heq, List.nil_append]

/-- The log has exactly the bytes which the scanner got when a NUL stands behind the
bytes of every read. -/
theorem logged_iff (chBuf : List Byte) {calls : List LogCall}
    (hcalls : ∀ call ∈ calls, call.WellFormed) :
    (runLog calls (.start chBuf)).payloads = (runLog calls (.start chBuf)).returned ↔
      EveryStep logStep LogCall.Closed calls (.start chBuf) := by
  obtain ⟨logged, returned, hlogged, hreturned, -, hiff⟩ := runLog_spec hcalls (.start chBuf)
  have hnone : (Logging.start chBuf).payloads = [] ∧ (Logging.start chBuf).returned = [] :=
    ⟨rfl, rfl⟩
  rw [hlogged, hreturned, hnone.1, hnone.2, List.nil_append, List.nil_append, hiff]

end Run

/-- A read into a buffer of 16 bytes which the scanner leaves as it is. -/
def LogCall.plain (s : List Byte) : LogCall where
  arrange memory := (memory ++ List.replicate 16 nul).take 16
  position := 0
  maxSize := 8
  answer := some (.data s)
  ticks := 0

theorem LogCall.plain_wellFormed {s : List Byte} (hlength : s.length ≤ 8) (hnul : nul ∉ s) :
    (LogCall.plain s).WellFormed where
  room memory := by simp [LogCall.plain]
  short c hc := by
    cases hc
    exact hlength
  nul_notMem c hc := by
    cases hc
    exact hnul

/-- Behind a longer read stands what was there before the shorter one. -/
theorem logged_iff_growing :
    let calls := [LogCall.plain (bytes "UP\n"), .plain (bytes "LOAD\n")]
    (runLog calls (.start [])).payloads = (runLog calls (.start [])).returned ∧
      EveryStep logStep LogCall.Closed calls (.start []) := by
  intro calls
  have hcalls : ∀ call ∈ calls, call.WellFormed := by
    simp only [calls, List.forall_mem_cons, List.not_mem_nil, false_implies, implies_true, and_true]
    exact ⟨LogCall.plain_wellFormed (by decide) (by decide),
      LogCall.plain_wellFormed (by decide) (by decide)⟩
  have hlogged : (runLog calls (.start [])).payloads = (runLog calls (.start [])).returned := by
    decide
  exact ⟨hlogged, (logged_iff [] hcalls).mp hlogged⟩

/-- Behind a short read the log repeats the end of the longer one before it. -/
theorem exists_repeated_bytes :
    ∃ calls : List LogCall, (∀ call ∈ calls, call.WellFormed) ∧
      (runLog calls (.start [])).payloads ≠ (runLog calls (.start [])).returned ∧
      (runLog calls (.start [])).payloads = bytes "LOAD\n" ++ bytes "UP\nD\n" ∧
      (runLog calls (.start [])).returned = bytes "LOAD\n" ++ bytes "UP\n" := by
  refine ⟨[.plain (bytes "LOAD\n"), .plain (bytes "UP\n")], ?_, by decide, by decide, by decide⟩
  simp only [List.forall_mem_cons, List.not_mem_nil, false_implies, implies_true, and_true]
  exact ⟨LogCall.plain_wellFormed (by decide) (by decide),
    LogCall.plain_wellFormed (by decide) (by decide)⟩

end Monitor

end DialdTop
