import DialdTop.QueueInvariant

/-!
# Commands of a port

Each chunk is recognised by how it begins.  What `parse_incoming` then does is
an equation for each keyword, and for the chunks without one.
-/

namespace DialdTop

open Program

/-! ## Keywords -/

inductive Keyword
  | monitorOff
  | monitor
  | close
  deriving DecidableEq, Repr

/-- The keyword with which a chunk begins. -/
def keyword (line : List Byte) : Option Keyword :=
  if strncasecmp line (bytes "monitor off\r") 12 = 0 ∨
      strncasecmp line (bytes "monitor\r") 8 = 0 then some .monitorOff
  else if strncasecmp line (bytes "monitor ") 8 = 0 then some .monitor
  else if strncasecmp line (bytes "close") 5 = 0 then some .close
  else none

theorem strncasecmp_ne_zero
    {a b : Byte} (h : tolower a ≠ tolower b) (as bs : List Byte) (n : ℕ) :
    strncasecmp (a :: as) (b :: bs) (n + 1) ≠ 0 := by
  have hnat : (tolower a).toNat ≠ (tolower b).toNat := by
    simpa [UInt8.toNat_inj] using h
  simp only [strncasecmp, ne_eq, h, not_false_eq_true, if_true]
  omega

/-- No other keyword begins like `close`. -/
theorem keyword_eq_close_iff (line : List Byte) :
    keyword line = some .close ↔ strncasecmp line (bytes "close") 5 = 0 := by
  constructor
  · intro hline
    unfold keyword at hline
    split at hline
    · cases hline
    · split at hline
      · cases hline
      · split at hline
        next hclose => exact hclose
        next => cases hline
  · intro hclose
    cases line with
    | nil => exact absurd hclose (by decide)
    | cons b line =>
        have hb : tolower b = tolower 99 := by
          by_contra hother
          exact strncasecmp_ne_zero hother line (bytes "lose") 4 hclose
        have hm : tolower b ≠ tolower 109 := by
          rw [hb]
          decide
        rw [keyword, if_neg, if_neg, if_pos hclose]
        · exact strncasecmp_ne_zero hm line (bytes "onitor ") 7
        · rw [not_or]
          exact ⟨strncasecmp_ne_zero hm line (bytes "onitor off\r") 11,
            strncasecmp_ne_zero hm line (bytes "onitor\r") 7⟩

theorem parseIncoming_run_closePort
    {env : Env} {line : List Byte} {s : Server} {c : ℕ} (hline : keyword line = some .close) :
    (parseIncoming env line c).run s =
      ((closePort c).run s).map fun result => (true, result.2) := by
  have hclose := (keyword_eq_close_iff line).mp hline
  unfold keyword at hline
  split at hline
  next => cases hline
  next hoff =>
    split at hline
    next => cases hline
    next hon =>
      rw [parseIncoming, if_neg hoff, if_neg hon, if_pos hclose, Prog.run_bind]
      cases (closePort c).run s with
      | error reason => rfl
      | ok result => rfl

section Parse

variable {env : Env} {line : List Byte} {s : Server} {c : ℕ} {p : Port}
  (hp : s.pq[c]? = some p)

include hp

theorem parseIncoming_run_monitorOff (hline : keyword line = some .monitorOff) :
    (parseIncoming env line c).run s =
      .ok (false, if p.has flagMonitor then s.monitorOff c else s) := by
  unfold keyword at hline
  split at hline
  next hoff =>
    rw [parseIncoming, if_pos hoff]
    by_cases hmonitor : p.has flagMonitor
    · simp [node_run hp, hmonitor, assignFlag, Server.monitorOff]
      rfl
    · simp [node_run hp, hmonitor]
  next =>
    split at hline
    · cases hline
    · split at hline
      · cases hline
      · cases hline

theorem parseIncoming_run_monitor (hline : keyword line = some .monitor) :
    (parseIncoming env line c).run s =
      if p.has flagMonitor then .ok (false, s)
      else if s.fs.fullcount = 0 then
        ((monitorOpen env).run (s.monitorOn c)).map fun result => (false, result.2)
      else .ok (false, s.monitorOn c) := by
  unfold keyword at hline
  split at hline
  next => cases hline
  next hoff =>
    split at hline
    next hon =>
      rw [parseIncoming, if_neg hoff, if_pos hon]
      by_cases hmonitor : p.has flagMonitor
      · simp [node_run hp, hmonitor]
      · by_cases hfull : s.fs.fullcount = 0
        · have hstate :
              { s with
                pq := s.pq.modify c fun p => { p with flag := p.flag ||| flagMonitor }
                monitorcount := s.monitorcount + 1 } = s.monitorOn c := rfl
          simp [node_run hp, hmonitor, hfull, assignFlag]
          rw [hstate]
          cases (monitorOpen env).run (s.monitorOn c) with
          | error reason => rfl
          | ok result => rfl
        · simp [node_run hp, hmonitor, hfull, assignFlag, Server.monitorOn]
          rfl
    next =>
      split at hline
      · cases hline
      · cases hline

/-- A run of `parse_incoming` on a chunk which turns the feed on. -/
theorem parseIncoming_monitor_cases
    (hline : keyword line = some .monitor) {closed : Bool} {next : Server}
    (hrun : (parseIncoming env line c).run s = .ok (closed, next)) :
    closed = false ∧
      (p.has flagMonitor = true ∧ next = s ∨
        p.has flagMonitor = false ∧
          (s.fs.fullcount ≠ 0 ∧ next = s.monitorOn c ∨
            s.fs.fullcount = 0 ∧ (monitorOpen env).run (s.monitorOn c) = .ok ((), next))) := by
  rw [parseIncoming_run_monitor hp hline] at hrun
  split at hrun
  next hmonitor =>
    cases hrun
    exact ⟨rfl, Or.inl ⟨hmonitor, rfl⟩⟩
  next hmonitor =>
    rw [Bool.not_eq_true] at hmonitor
    split at hrun
    next hfull =>
      cases hopen : (monitorOpen env).run (s.monitorOn c) with
      | error reason =>
          rw [hopen] at hrun
          cases hrun
      | ok result =>
          rw [hopen] at hrun
          cases hrun
          exact ⟨rfl, Or.inr ⟨hmonitor, Or.inr ⟨hfull, rfl⟩⟩⟩
    next hfull =>
      cases hrun
      exact ⟨rfl, Or.inr ⟨hmonitor, Or.inl ⟨hfull, rfl⟩⟩⟩

theorem parseIncoming_run_close
    (hinv : QueueInv s) (hline : keyword line = some .close) :
    (parseIncoming env line c).run s = .ok (true, s.closed c p) := by
  rw [parseIncoming_run_closePort hline, hinv.closePort_run hp]
  rfl

theorem parseIncoming_run_other (hline : keyword line = none) :
    (parseIncoming env line c).run s =
      if p.has flagWrite then
        .ok (false, s.log (.write (.parseIncoming p) s.controlfd line
          (env.write s s.controlfd line)))
      else if (noControlLine line).length < 1024 then
        .ok (false, s.log (.write (.parseIncoming p) p.fd (noControlLine line)
          (env.write s p.fd (noControlLine line))))
      else .error (.fault .bufferOverflow) := by
  unfold keyword at hline
  split at hline
  next => cases hline
  next hoff =>
    split at hline
    next => cases hline
    next hon =>
      split at hline
      next => cases hline
      next hclose =>
        rw [parseIncoming, if_neg hoff, if_neg hon, if_neg hclose]
        by_cases hwrite : p.has flagWrite
        · simp [node_run hp, hwrite, sysWrite]
        · by_cases hroom : (noControlLine line).length < 1024
          · simp [node_run hp, hwrite, intoBuffer, hroom, sysWrite, Except.map]
          · simp [node_run hp, hwrite, intoBuffer, hroom, Except.map]

theorem parseIncoming_closed_iff
    (hinv : QueueInv s) {closed : Bool} {next : Server}
    (hrun : (parseIncoming env line c).run s = .ok (closed, next)) :
    closed = true ↔ keyword line = some .close := by
  cases hline : keyword line with
  | none =>
      rw [parseIncoming_run_other hp hline] at hrun
      split at hrun
      · cases hrun
        simp
      · split at hrun
        · cases hrun
          simp
        · cases hrun
  | some word =>
      cases word with
      | monitorOff =>
          rw [parseIncoming_run_monitorOff hp hline] at hrun
          cases hrun
          simp
      | monitor =>
          rcases parseIncoming_monitor_cases hp hline hrun with ⟨rfl, _⟩
          simp
      | close =>
          rw [parseIncoming_run_close hp hinv hline] at hrun
          cases hrun
          simp

end Parse

/-! ## Commands which overrun memory -/

/-- The path of the FIFO is too long, or its descriptor beyond the bit set. -/
def FifoOverruns (env : Env) (s : Server) : Prop :=
  s.monitorfd = -1 ∧
    (255 ≤ (env.tmpnam s).length ∨
      ∃ fd, env.openMonitor { s with monitor := env.tmpnam s } = some fd ∧
        s.fresh fd ∧ fdSetSize ≤ fd)

theorem monitorOpen_run_long
    {env : Env} {s : Server} (hclosed : s.monitorfd = -1)
    (hpath : ¬ (env.tmpnam s).length < 255) :
    (monitorOpen env).run s = .error (.fault .bufferOverflow) := by
  simp [monitorOpen, hclosed, intoBuffer, hpath, Except.map]

theorem monitorOpen_completes {env : Env} {s : Server} (hfits : ¬ FifoOverruns env s) :
    ∃ next, (monitorOpen env).run s = .ok ((), next) := by
  by_cases hclosed : s.monitorfd = -1
  · have hpath : (env.tmpnam s).length < 255 := by
      by_contra hlong
      exact hfits ⟨hclosed, Or.inl (by omega)⟩
    by_cases hanswer : ∃ fd,
        env.openMonitor { s with monitor := env.tmpnam s } = some fd ∧ s.fresh fd
    · rcases hanswer with ⟨fd, hfd, hfresh⟩
      have hrange : fd < fdSetSize := by
        by_contra hbeyond
        exact hfits ⟨hclosed, Or.inr ⟨fd, hfd, hfresh, by omega⟩⟩
      rw [monitorOpen_run_fresh hclosed hpath hfd hfresh, if_pos hrange]
      exact ⟨_, rfl⟩
    · refine ⟨_, monitorOpen_run_failed hclosed hpath ?_⟩
      intro fd hfd hfresh
      exact hanswer ⟨fd, hfd, hfresh⟩
  · exact ⟨s, monitorOpen_run_open env hclosed⟩

theorem monitorOpen_faults {env : Env} {s : Server} (hoverruns : FifoOverruns env s) :
    ∃ fault, (monitorOpen env).run s = .error (.fault fault) := by
  rcases hoverruns with ⟨hclosed, hreason⟩
  by_cases hpath : (env.tmpnam s).length < 255
  · rcases hreason with hlong | ⟨fd, hfd, hfresh, hbeyond⟩
    · omega
    · rw [monitorOpen_run_fresh hclosed hpath hfd hfresh, if_neg (by omega)]
      exact ⟨_, rfl⟩
  · exact ⟨_, monitorOpen_run_long hclosed hpath⟩

/-- The command of the port `p` at position `c` writes past the end of a buffer
or of a bit set. -/
inductive Overruns (env : Env) (line : List Byte) (c : ℕ) (p : Port) (s : Server) : Prop
  | reply : keyword line = none → ¬ p.has flagWrite → 1024 ≤ (noControlLine line).length →
      Overruns env line c p s
  | fifo : keyword line = some .monitor → ¬ p.has flagMonitor → s.fs.fullcount = 0 →
      FifoOverruns env (s.monitorOn c) → Overruns env line c p s

theorem parseIncoming_completes
    {env : Env} {line : List Byte} {s : Server} {c : ℕ} {p : Port}
    (hinv : QueueInv s) (hp : s.pq[c]? = some p) (hfits : ¬ Overruns env line c p s) :
    ∃ closed next, (parseIncoming env line c).run s = .ok (closed, next) := by
  cases hline : keyword line with
  | none =>
      rw [parseIncoming_run_other hp hline]
      by_cases hwrite : p.has flagWrite
      · rw [if_pos hwrite]
        exact ⟨_, _, rfl⟩
      · have hroom : (noControlLine line).length < 1024 := by
          by_contra hlong
          exact hfits (.reply hline hwrite (by omega))
        rw [if_neg hwrite, if_pos hroom]
        exact ⟨_, _, rfl⟩
  | some word =>
      cases word with
      | monitorOff => exact ⟨_, _, parseIncoming_run_monitorOff hp hline⟩
      | monitor =>
          rw [parseIncoming_run_monitor hp hline]
          by_cases hmonitor : p.has flagMonitor
          · rw [if_pos hmonitor]
            exact ⟨_, _, rfl⟩
          · rw [if_neg hmonitor]
            by_cases hfull : s.fs.fullcount = 0
            · rw [if_pos hfull]
              have hfifo : ¬ FifoOverruns env (s.monitorOn c) := by
                intro hoverruns
                exact hfits (.fifo hline hmonitor hfull hoverruns)
              rcases monitorOpen_completes hfifo with ⟨next, hopen⟩
              rw [hopen]
              exact ⟨_, _, rfl⟩
            · rw [if_neg hfull]
              exact ⟨_, _, rfl⟩
      | close => exact ⟨_, _, parseIncoming_run_close hp hinv hline⟩

theorem parseIncoming_faults
    {env : Env} {line : List Byte} {s : Server} {c : ℕ} {p : Port}
    (hp : s.pq[c]? = some p) (hoverruns : Overruns env line c p s) :
    ∃ fault, (parseIncoming env line c).run s = .error (.fault fault) := by
  cases hoverruns with
  | reply hline hwrite hlong =>
      rw [parseIncoming_run_other hp hline, if_neg hwrite, if_neg (by omega)]
      exact ⟨_, rfl⟩
  | fifo hline hmonitor hfull hfifo =>
      rcases monitorOpen_faults hfifo with ⟨fault, hopen⟩
      rw [parseIncoming_run_monitor hp hline, if_neg hmonitor, if_pos hfull, hopen]
      exact ⟨fault, rfl⟩

/-! ## The buffer of the reply -/

/-- The number of bytes before the first LF, CR or NUL. -/
def lineEnd (chunk : List Byte) : ℕ :=
  chunk.findIdx fun c => c = newline ∨ c = carriageReturn ∨ c = nul

def leadingBlanks (chunk : List Byte) : ℕ :=
  chunk.findIdx fun c => c ≠ blank

/-- The length of the first line without its leading blanks. -/
def commandLength (chunk : List Byte) : ℕ :=
  lineEnd chunk - leadingBlanks chunk

theorem lineEnd_cons (c : Byte) (chunk : List Byte) :
    lineEnd (c :: chunk) = if EndsLine c then 0 else lineEnd chunk + 1 := by
  rw [lineEnd, List.findIdx_cons]
  by_cases hend : EndsLine c
  · have hfound : decide (c = newline ∨ c = carriageReturn ∨ c = nul) = true :=
      decide_eq_true hend
    rw [hfound, if_pos hend]
    rfl
  · have hfound : decide (c = newline ∨ c = carriageReturn ∨ c = nul) = false :=
      decide_eq_false hend
    rw [hfound, if_neg hend]
    rfl

theorem cutLine_length (chunk : List Byte) : (cutLine chunk).length = lineEnd chunk := by
  induction chunk with
  | nil => rfl
  | cons c chunk ih =>
      rw [cutLine_cons, lineEnd_cons]
      by_cases hend : EndsLine c
      · rw [if_pos hend, if_pos hend]
        rfl
      · rw [if_neg hend, if_neg hend, List.length_cons, ih]

theorem cleanUserid_length (chunk : List Byte) :
    (cleanUserid chunk).length = commandLength chunk := by
  induction chunk with
  | nil => rfl
  | cons c chunk ih =>
      rw [cleanUserid, cutLine_cons, commandLength, lineEnd_cons, leadingBlanks,
        List.findIdx_cons]
      by_cases hend : EndsLine c
      · rw [if_pos hend, if_pos hend, Nat.zero_sub]
        rfl
      · rw [if_neg hend, if_neg hend]
        by_cases hblank : c = blank
        · rw [List.dropWhile_cons_of_pos (by simpa using hblank)]
          have hrest : (cleanUserid chunk).length = lineEnd chunk - leadingBlanks chunk := ih
          simp only [hblank, ne_eq, not_true_eq_false, decide_false, cond_false]
          unfold cleanUserid leadingBlanks at hrest
          simp only [ne_eq] at hrest
          omega
        · rw [List.dropWhile_cons_of_neg (by simpa using hblank), List.length_cons,
            cutLine_length]
          simp [hblank]

theorem noControlLine_length (chunk : List Byte) :
    (noControlLine chunk).length = (cleanUserid chunk).length + 55 := by
  have hhead : (bytes "MESSAGE\nYou have no control access: Command \"").length = 45 := by
    decide
  have htail : (bytes "\" ignored\n").length = 10 := by decide
  simp only [noControlLine, List.length_append, hhead, htail]
  omega

/-- The reply fits its buffer if and only if the command is short enough. -/
theorem reply_fits_iff
    (env : Env) (s : Server) (c : ℕ) (p : Port) (hp : s.pq[c]? = some p)
    (hwrite : p.has flagWrite = false) (chunk : List Byte) (hline : keyword chunk = none) :
    ((noControlLine chunk).length + 1 ≤ 1024 ↔ commandLength chunk ≤ 968) ∧
      ((parseIncoming env chunk c).run s = .error (.fault .bufferOverflow) ↔
        968 < commandLength chunk) := by
  have hlength := noControlLine_length chunk
  rw [cleanUserid_length] at hlength
  constructor
  · omega
  · rw [parseIncoming_run_other hp hline, if_neg (by simp [hwrite])]
    by_cases hroom : (noControlLine chunk).length < 1024
    · rw [if_pos hroom]
      constructor
      · intro h
        cases h
      · omega
    · rw [if_neg hroom]
      constructor
      · omega
      · intro _
        rfl

/-- A client without control access. -/
def Server.uncontrolled : Server :=
  finalState ((portEnqueue .obliging monitorClient).run
    (finalState ((start .obliging).run .blank)))

theorem reply_fits_iff_uncontrolled :
    (noControlLine (bytes "  block\n")).length + 1 ≤ 1024 := by
  have hp : Server.uncontrolled.pq[0]? = some monitorClient := by decide
  have hfits := reply_fits_iff .obliging .uncontrolled 0 monitorClient hp (by decide)
    (bytes "  block\n") (by decide)
  exact hfits.1.mpr (by decide)

/-- A command of 969 letters. -/
theorem exists_overlong_reply :
    ∃ env s c p chunk, s.pq[c]? = some p ∧ p.has flagWrite = false ∧
      keyword chunk = none ∧ 1 ≤ chunk.length ∧ chunk.length ≤ 1000 ∧
      ¬ (noControlLine chunk).length + 1 ≤ 1024 ∧
      (parseIncoming env chunk c).run s = .error (.fault .bufferOverflow) := by
  let chunk : List Byte := List.replicate 969 120 ++ [newline]
  have hp : Server.uncontrolled.pq[0]? = some monitorClient := by decide
  have hwrite : ¬ monitorClient.has flagWrite := by decide
  have hline : keyword chunk = none := by decide +kernel
  have hroom : ¬ (noControlLine chunk).length < 1024 := by decide +kernel
  refine ⟨.obliging, .uncontrolled, 0, monitorClient, chunk, hp, by decide, hline,
    by decide +kernel, by decide +kernel, by omega, ?_⟩
  rw [parseIncoming_run_other hp hline, if_neg hwrite, if_neg hroom]

end DialdTop
