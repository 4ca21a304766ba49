import DialdTop.Authorisation
import DialdTop.Commands
import DialdTop.UserExtraction

/-!
# Line endings of commands

The client ends a command with LF, telnet with CR LF.  Two of the keywords of
`parse_incoming` contain the CR, hence no command of the client begins with them.
-/

namespace DialdTop

open Program

/-! ## Words of a command -/

/-- The text begins with the word, ignoring case. -/
def BeginsWith (line word : List Byte) : Prop :=
  word.map tolower <+: line.map tolower

theorem tolower_eq_iff {c d : Byte} (hd : d.toNat < 65) : tolower c = d ↔ c = d := by
  unfold tolower
  split
  case isTrue hupper =>
    simp only [UInt8.le_iff_toNat_le, UInt8.toNat_ofNat] at hupper
    simp only [← UInt8.toNat_inj, UInt8.toNat_add, UInt8.toNat_ofNat]
    omega
  case isFalse => rfl

theorem mem_map_tolower_iff {line : List Byte} {d : Byte} (hd : d.toNat < 65) :
    d ∈ line.map tolower ↔ d ∈ line := by
  simp [List.mem_map, tolower_eq_iff hd]

/-- Comparing as many bytes as a word has finds it at the beginning of a line. -/
theorem strncasecmp_eq_zero_iff
    (line word : List Byte) (hword : nul ∉ word) :
    strncasecmp line word word.length = 0 ↔ BeginsWith line word := by
  unfold BeginsWith
  induction word generalizing line with
  | nil => simp [strncasecmp]
  | cons b word ih =>
      rw [List.mem_cons, not_or] at hword
      have hb : tolower b ≠ nul := tolower_ne_nul (Ne.symm hword.1)
      cases line with
      | nil => simpa [strncasecmp, nul, ← UInt8.toNat_inj] using hb
      | cons a line =>
          by_cases heq : tolower a = tolower b
          · have ha : a ≠ nul := by
              intro ha
              rw [ha] at heq
              exact hb heq.symm
            simp [strncasecmp, heq, ha, ih line hword.2, List.cons_prefix_cons]
          · have hzero := strncasecmp_ne_zero heq line word word.length
            have hother : tolower b ≠ tolower a := Ne.symm heq
            simp [hzero, List.cons_prefix_cons, hother]

section Ending

variable (w word : List Byte)

theorem beginsWith_newline_iff (hword : newline ∉ word) :
    BeginsWith (w ++ [newline]) word ↔ BeginsWith w word := by
  rw [BeginsWith, List.map_append, List.map_singleton, List.prefix_concat_iff]
  have hlast : word.map tolower ≠ w.map tolower ++ [tolower newline] := by
    intro heq
    apply hword
    rw [← mem_map_tolower_iff (by decide), heq]
    exact List.mem_append_right _ (List.mem_singleton.mpr rfl)
  rw [or_iff_right hlast]
  rfl

theorem beginsWith_carriageReturn_iff (hcr : carriageReturn ∉ word) (hlf : newline ∉ word) :
    BeginsWith (w ++ [carriageReturn, newline]) word ↔ BeginsWith w word := by
  have hsplit : w ++ [carriageReturn, newline] = (w ++ [carriageReturn]) ++ [newline] := by simp
  rw [hsplit, beginsWith_newline_iff _ _ hlf, BeginsWith, List.map_append, List.map_singleton,
    List.prefix_concat_iff]
  have hlast : word.map tolower ≠ w.map tolower ++ [tolower carriageReturn] := by
    intro heq
    apply hcr
    rw [← mem_map_tolower_iff (by decide), heq]
    exact List.mem_append_right _ (List.mem_singleton.mpr rfl)
  rw [or_iff_right hlast]
  rfl

theorem not_beginsWith_of_notMem (hw : carriageReturn ∉ w) :
    ¬ BeginsWith w (word ++ [carriageReturn]) := by
  intro hbegins
  have hmem : carriageReturn ∈ w.map tolower := by
    apply hbegins.subset
    rw [mem_map_tolower_iff (by decide)]
    exact List.mem_append_right _ (List.mem_singleton.mpr rfl)
  exact hw ((mem_map_tolower_iff (by decide)).mp hmem)

/-- A word with the CR is found when it is the whole command. -/
theorem beginsWith_concat_iff (hw : carriageReturn ∉ w) (hword : newline ∉ word) :
    BeginsWith (w ++ [carriageReturn, newline]) (word ++ [carriageReturn]) ↔
      EqIgnoringCase w word := by
  have hsplit : w ++ [carriageReturn, newline] = (w ++ [carriageReturn]) ++ [newline] := by simp
  have hlf : newline ∉ word ++ [carriageReturn] := by
    rw [List.mem_append, not_or]
    exact ⟨hword, by decide⟩
  rw [hsplit, beginsWith_newline_iff _ _ hlf, BeginsWith, List.map_append, List.map_append,
    List.map_singleton, List.prefix_concat_iff, List.append_left_inj]
  have hinside : ¬ word.map tolower ++ [tolower carriageReturn] <+: w.map tolower := by
    have h := not_beginsWith_of_notMem w word hw
    rwa [BeginsWith, List.map_append, List.map_singleton] at h
  rw [or_iff_left hinside, EqIgnoringCase, eq_comm]

end Ending

/-! ## Keywords of a command -/

instance (line word : List Byte) : Decidable (BeginsWith line word) :=
  inferInstanceAs (Decidable (_ <+: _))

theorem keyword_eq (line : List Byte) :
    keyword line =
      if BeginsWith line (bytes "monitor off" ++ [carriageReturn]) ∨
          BeginsWith line (bytes "monitor" ++ [carriageReturn]) then some .monitorOff
      else if BeginsWith line (bytes "monitor ") then some .monitor
      else if BeginsWith line (bytes "close") then some .close
      else none := by
  have hoff := strncasecmp_eq_zero_iff line (bytes "monitor off\r") (by decide)
  have hbare := strncasecmp_eq_zero_iff line (bytes "monitor\r") (by decide)
  have hon := strncasecmp_eq_zero_iff line (bytes "monitor ") (by decide)
  have hclose := strncasecmp_eq_zero_iff line (bytes "close") (by decide)
  have hofflength : (bytes "monitor off\r").length = 12 := by decide
  have hbarelength : (bytes "monitor\r").length = 8 := by decide
  have honlength : (bytes "monitor ").length = 8 := by decide
  have hcloselength : (bytes "close").length = 5 := by decide
  rw [hofflength] at hoff
  rw [hbarelength] at hbare
  rw [honlength] at hon
  rw [hcloselength] at hclose
  have hoffword : bytes "monitor off" ++ [carriageReturn] = bytes "monitor off\r" := by decide
  have hbareword : bytes "monitor" ++ [carriageReturn] = bytes "monitor\r" := by decide
  simp only [keyword, hoff, hbare, hon, hclose, hoffword, hbareword]

section Keyword

variable {w : List Byte} (hw : ∀ b ∈ w, ¬ EndsLine b)

include hw

theorem keyword_newline :
    keyword (w ++ [newline]) =
      if BeginsWith w (bytes "monitor ") then some .monitor
      else if BeginsWith w (bytes "close") then some .close
      else none := by
  have hcr : carriageReturn ∉ w := fun hmem => hw carriageReturn hmem (by decide)
  have hoff : ¬ BeginsWith (w ++ [newline]) (bytes "monitor off" ++ [carriageReturn]) := by
    rw [beginsWith_newline_iff _ _ (by decide)]
    exact not_beginsWith_of_notMem _ _ hcr
  have hbare : ¬ BeginsWith (w ++ [newline]) (bytes "monitor" ++ [carriageReturn]) := by
    rw [beginsWith_newline_iff _ _ (by decide)]
    exact not_beginsWith_of_notMem _ _ hcr
  have hon := beginsWith_newline_iff w (bytes "monitor ") (by decide)
  have hclose := beginsWith_newline_iff w (bytes "close") (by decide)
  simp only [keyword_eq, hoff, hbare, hon, hclose, or_self, if_false]

theorem keyword_carriageReturn :
    keyword (w ++ [carriageReturn, newline]) =
      if EqIgnoringCase w (bytes "monitor off") ∨ EqIgnoringCase w (bytes "monitor") then
        some .monitorOff
      else keyword (w ++ [newline]) := by
  have hcr : carriageReturn ∉ w := fun hmem => hw carriageReturn hmem (by decide)
  have hoff := beginsWith_concat_iff w (bytes "monitor off") hcr (by decide)
  have hbare := beginsWith_concat_iff w (bytes "monitor") hcr (by decide)
  have hon := beginsWith_carriageReturn_iff w (bytes "monitor ")
    (by decide) (by decide)
  have hclose := beginsWith_carriageReturn_iff w (bytes "close")
    (by decide) (by decide)
  rw [keyword_newline hw]
  simp only [keyword_eq, hoff, hbare, hon, hclose]

theorem keyword_of_off (hoff : EqIgnoringCase w (bytes "monitor off")) :
    keyword (w ++ [newline]) = some .monitor := by
  have hon : BeginsWith w (bytes "monitor ") := by
    rw [BeginsWith, hoff]
    decide
  rw [keyword_newline hw, if_pos hon]

theorem keyword_of_bare (hbare : EqIgnoringCase w (bytes "monitor")) :
    keyword (w ++ [newline]) = none := by
  have hon : ¬ BeginsWith w (bytes "monitor ") := by
    rw [BeginsWith, hbare]
    decide
  have hclose : ¬ BeginsWith w (bytes "close") := by
    rw [BeginsWith, hbare]
    decide
  rw [keyword_newline hw, if_neg hon, if_neg hclose]

end Keyword

/-! ## Effect of a command -/

/-- `parse_incoming` wrote the line to the control FIFO. -/
def forwarded (s next : Server) (line : List Byte) : Bool :=
  (next.trace.drop s.trace.length).any fun
    | .write (.parseIncoming _) fd text _ => decide (fd = s.controlfd ∧ text = line)
    | _ => false

/-- What a command does to its connection and to the feed. -/
structure CommandEffect where
  closed : Bool
  monitor : Option Bool
  monitorcount : Int
  forwarded : Bool
  deriving DecidableEq

/-- The effect of the command from the port at position `c`. -/
def commandEffect (env : Env) (s : Server) (c : ℕ) (line : List Byte) :
    Except Halt CommandEffect :=
  ((parseIncoming env line c).run s).map fun result =>
    { closed := result.1
      monitor := result.2.pq[c]?.map (·.has flagMonitor)
      monitorcount := result.2.monitorcount
      forwarded := forwarded s result.2 line }

theorem forwarded_of_trace
    {s next : Server} {line : List Byte} (h : next.trace = s.trace) :
    forwarded s next line = false := by
  simp [forwarded, h]

section Effect

variable {env : Env} {s : Server} {c : ℕ} {p : Port} (hp : s.pq[c]? = some p)

include hp

theorem parseIncoming_run_congr
    {line other : List Byte} {word : Keyword} (hline : keyword line = some word)
    (hother : keyword other = some word) :
    (parseIncoming env line c).run s = (parseIncoming env other c).run s := by
  cases word with
  | monitorOff =>
      rw [parseIncoming_run_monitorOff hp hline, parseIncoming_run_monitorOff hp hother]
  | monitor => rw [parseIncoming_run_monitor hp hline, parseIncoming_run_monitor hp hother]
  | close => rw [parseIncoming_run_closePort hline, parseIncoming_run_closePort hother]

theorem not_forwarded
    {line : List Byte} {word : Keyword} (hline : keyword line = some word)
    {closed : Bool} {next : Server} (hrun : (parseIncoming env line c).run s = .ok (closed, next)) :
    forwarded s next line = false := by
  cases word with
  | monitorOff =>
      rw [parseIncoming_run_monitorOff hp hline] at hrun
      cases hrun
      split
      · exact forwarded_of_trace rfl
      · exact forwarded_of_trace rfl
  | monitor =>
      have htrace : (s.monitorOn c).trace = s.trace := rfl
      rcases parseIncoming_monitor_cases hp hline hrun with ⟨_, ⟨_, rfl⟩ | ⟨_, hon⟩⟩
      · exact forwarded_of_trace rfl
      · rcases hon with ⟨_, rfl⟩ | ⟨_, hopen⟩
        · exact forwarded_of_trace htrace
        · rcases monitorOpen_trace hopen with hnext | ⟨path, written, hnext⟩
          · exact forwarded_of_trace (hnext.trans htrace)
          · simp [forwarded, hnext, htrace]
  | close =>
      rw [parseIncoming_run_closePort hline] at hrun
      cases hclose : (closePort c).run s with
      | error reason =>
          rw [hclose] at hrun
          cases hrun
      | ok result =>
          rw [hclose] at hrun
          cases hrun
          exact forwarded_of_trace (closePort_trace hclose)

theorem commandEffect_congr
    {line other : List Byte} {word : Keyword} (hline : keyword line = some word)
    (hother : keyword other = some word) :
    commandEffect env s c line = commandEffect env s c other := by
  have hsame : (parseIncoming env line c).run s = (parseIncoming env other c).run s :=
    parseIncoming_run_congr hp hline hother
  unfold commandEffect
  rw [← hsame]
  cases hrun : (parseIncoming env line c).run s with
  | error reason => rfl
  | ok result =>
      have hfirst := not_forwarded hp hline hrun
      have hsecond := not_forwarded hp hother (hsame.symm.trans hrun)
      simp only [Except.map, hfirst, hsecond]

theorem commandEffect_other
    {line : List Byte} (hline : keyword line = none) (hreply : noControlLine line ≠ line) :
    commandEffect env s c line =
      if p.has flagWrite then .ok ⟨false, some (p.has flagMonitor), s.monitorcount, true⟩
      else if (noControlLine line).length < 1024 then
        .ok ⟨false, some (p.has flagMonitor), s.monitorcount, false⟩
      else .error (.fault .bufferOverflow) := by
  rw [commandEffect, parseIncoming_run_other hp hline]
  split
  · simp [Except.map, Server.log, forwarded, hp]
  · split
    · simp [Except.map, Server.log, forwarded, hp, hreply]
    · rfl

theorem commandEffect_monitorOff
    {line : List Byte} (hline : keyword line = some .monitorOff) :
    commandEffect env s c line =
      .ok ⟨false, some false,
        if p.has flagMonitor then s.monitorcount - 1 else s.monitorcount, false⟩ := by
  have hrun : (parseIncoming env line c).run s = _ := parseIncoming_run_monitorOff hp hline
  have hforwarded := not_forwarded hp hline hrun
  rw [commandEffect, hrun, Except.map, hforwarded]
  by_cases hmonitor : p.has flagMonitor
  · simp [hmonitor, Server.monitorOff, hp]
  · simp [hmonitor, hp]

theorem commandEffect_monitor
    {line : List Byte} (hline : keyword line = some .monitor) {effect : CommandEffect}
    (heffect : commandEffect env s c line = .ok effect) :
    effect.monitorcount =
      if p.has flagMonitor then s.monitorcount else s.monitorcount + 1 := by
  rw [commandEffect] at heffect
  cases hrun : (parseIncoming env line c).run s with
  | error reason =>
      rw [hrun] at heffect
      cases heffect
  | ok result =>
      rw [hrun] at heffect
      cases heffect
      change result.2.monitorcount = _
      rcases parseIncoming_monitor_cases hp hline hrun with ⟨_, ⟨hmonitor, hnext⟩ | ⟨hmonitor, hon⟩⟩
      · rw [if_pos hmonitor, hnext]
      · rw [if_neg (by simp [hmonitor])]
        rcases hon with ⟨_, hnext⟩ | ⟨_, hopen⟩
        · simp only [hnext, Server.monitorOn]
        · rcases monitorOpen_cases hopen with ⟨_, hnext⟩ | ⟨_, path, ⟨hnext, _⟩ | hopened⟩
          · simp only [hnext, Server.monitorOn]
          · simp only [hnext, Server.monitorFailed, Server.monitorOn]
          · rcases hopened with ⟨fd, written, _, _, hnext⟩
            simp only [hnext, Server.monitorOpened, Server.monitorOn, Server.log]

end Effect

/-! ## The two endings -/

theorem noControlLine_ne {line : List Byte} (hline : line.count newline ≤ 1) :
    noControlLine line ≠ line := by
  intro heq
  have hhead : (bytes "MESSAGE\nYou have no control access: Command \"").count newline = 1 := by
    decide
  have htail : (bytes "\" ignored\n").count newline = 1 := by decide
  have hcount := congrArg (List.count newline) heq
  rw [noControlLine, List.count_append, List.count_append, hhead, htail] at hcount
  omega

section Endings

variable {w : List Byte} (hw : ∀ b ∈ w, ¬ EndsLine b)

include hw

theorem noControlLine_ending {ending : List Byte}
    (hending : ending = [newline] ∨ ending = [carriageReturn, newline]) :
    noControlLine (w ++ ending) = noControlLine (w ++ [newline]) ∧
      noControlLine (w ++ ending) ≠ w ++ ending := by
  have hlf : w.count newline = 0 := by
    rw [List.count_eq_zero]
    exact fun hmem => hw newline hmem (by decide)
  constructor
  · rcases hending with rfl | rfl
    · rfl
    · rw [noControlLine, noControlLine, cleanUserid, cleanUserid,
        cutLine_append_cons hw (by decide), cutLine_append_cons hw (by decide)]
  · apply noControlLine_ne
    rw [List.count_append, hlf]
    rcases hending with rfl | rfl
    · decide
    · decide

theorem reply_fits_of_bare (hbare : EqIgnoringCase w (bytes "monitor")) :
    (noControlLine (w ++ [newline])).length < 1024 := by
  have hlength : w.length = 7 := by
    have h := congrArg List.length hbare
    rwa [List.length_map, List.length_map] at h
  have hclean : (cleanUserid (w ++ [newline])).length ≤ w.length := by
    rw [cleanUserid, cutLine_append_cons hw (by decide)]
    exact (List.dropWhile_suffix _).length_le
  rw [noControlLine_length]
  omega

theorem commandEffect_ending_other
    {env : Env} {s : Server} {c : ℕ} {p : Port} (hp : s.pq[c]? = some p)
    (hline : keyword (w ++ [newline]) = none)
    (hother : keyword (w ++ [carriageReturn, newline]) = none) :
    commandEffect env s c (w ++ [newline]) =
      commandEffect env s c (w ++ [carriageReturn, newline]) := by
  have hfirst := noControlLine_ending hw (Or.inl rfl)
  have hsecond := noControlLine_ending hw (Or.inr rfl)
  rw [commandEffect_other hp hline hfirst.2, commandEffect_other hp hother hsecond.2, hsecond.1]

end Endings

/-- The line endings mean the same if and only if the command is not `monitor off`,
and is `monitor` alone only from a port without `FLAG_MONITOR` and `FLAG_WRITE`. -/
theorem commandEffect_endings_iff
    (env : Env) (s : Server) (c : ℕ) (p : Port) (w : List Byte)
    (hp : s.pq[c]? = some p) (hw : ∀ b ∈ w, ¬ EndsLine b) :
    commandEffect env s c (w ++ [newline]) =
        commandEffect env s c (w ++ [carriageReturn, newline]) ↔
      ¬ EqIgnoringCase w (bytes "monitor off") ∧
        (EqIgnoringCase w (bytes "monitor") →
          p.has flagMonitor = false ∧ p.has flagWrite = false) := by
  have hcr := keyword_carriageReturn hw
  by_cases hoff : EqIgnoringCase w (bytes "monitor off")
  · -- the LF turns the feed on, the CR LF off
    rw [if_pos (Or.inl hoff)] at hcr
    refine iff_of_false ?_ fun h => h.1 hoff
    intro heq
    rw [commandEffect_monitorOff hp hcr] at heq
    have hon := commandEffect_monitor hp (keyword_of_off hw hoff) heq
    by_cases hmonitor : p.has flagMonitor
    · simp only [if_pos hmonitor] at hon
      omega
    · simp only [if_neg hmonitor] at hon
      omega
  · by_cases hbare : EqIgnoringCase w (bytes "monitor")
    · rw [if_pos (Or.inr hbare)] at hcr
      rw [commandEffect_monitorOff hp hcr,
        commandEffect_other hp (keyword_of_bare hw hbare) (noControlLine_ending hw (Or.inl rfl)).2,
        if_pos (reply_fits_of_bare hw hbare)]
      by_cases hwrite : p.has flagWrite
      · simp [hwrite, hbare]
      · by_cases hmonitor : p.has flagMonitor
        · simp [hwrite, hmonitor, hbare]
        · simp [hwrite, hmonitor, hoff]
    · rw [if_neg (not_or.mpr ⟨hoff, hbare⟩)] at hcr
      refine iff_of_true ?_ ⟨hoff, fun h => absurd h hbare⟩
      cases hline : keyword (w ++ [newline]) with
      | none => exact commandEffect_ending_other hw hp hline (hcr.trans hline)
      | some word => exact commandEffect_congr hp hline (hcr.trans hline)

theorem commandEffect_endings_iff_block :
    commandEffect .obliging .uncontrolled 0 (bytes "block" ++ [newline]) =
      commandEffect .obliging .uncontrolled 0 (bytes "block" ++ [carriageReturn, newline]) := by
  have hp : Server.uncontrolled.pq[0]? = some monitorClient := by decide
  have hw : ∀ b ∈ bytes "block", ¬ EndsLine b := by
    have hword : bytes "block" = [98, 108, 111, 99, 107] := by decide
    simp [hword, EndsLine, newline, carriageReturn, nul]
  have hoff : ¬ EqIgnoringCase (bytes "block") (bytes "monitor off") := by decide
  have hbare : ¬ EqIgnoringCase (bytes "block") (bytes "monitor") := by decide
  exact (commandEffect_endings_iff .obliging .uncontrolled 0 monitorClient (bytes "block") hp
    hw).mpr ⟨hoff, fun h => absurd h hbare⟩

/-- `monitor off` turns the feed on when it ends with LF. -/
theorem exists_feed_turned_on :
    Server.uncontrolled.pq[0]? = some monitorClient ∧
      commandEffect .obliging .uncontrolled 0 (bytes "monitor off\n") =
        .ok ⟨false, some true, 1, false⟩ ∧
      commandEffect .obliging .uncontrolled 0 (bytes "monitor off\r\n") =
        .ok ⟨false, some false, 0, false⟩ := by
  refine ⟨by decide, ?_, ?_⟩
  · decide +kernel
  · decide +kernel

end DialdTop
