import DialdTop.ScreenRows
import Mathlib.Data.List.GetD

/-!
# The packet table

On a screen whose size is the one `init_fifo` has seen, each packet which is shown
is a row shorter than the screen is wide.  The rows of the array are therefore the
texts of the first packets of the queue, and the others are empty.
-/

namespace DialdTop

namespace Monitor

/-- A call of `do_packet` with what it finds in the library. -/
structure Arrived where
  env : Lookups
  packet : PacketCall

/-- The calls for a queue, of which `do_endqueue` does nothing. -/
def queueOps (now : Int) (packets : List Arrived) : List ScreenOp :=
  .doQueue now :: packets.map fun p => .doPacket p.env p.packet

abbrev runOps (ops : List ScreenOp) (s : Screen) : Except ScreenFault Screen :=
  runSteps ScreenOp.perform ops s

/-- The width of a name in a row, for a screen which is wide enough. -/
def nameWidth (cols : ℕ) : ℕ := (cols - 36) / 2

/-- The size of the terminal is within the limits, and `init_fifo` has seen it.
The rows may hold anything. -/
structure Screen.Fixed (s : Screen) : Prop where
  allocated : s.Allocated
  lines_ge : headLines ≤ s.terminal.lines
  lines_le : s.terminal.lines ≤ 264
  cols_ge : 38 ≤ s.terminal.cols
  cols_le : s.terminal.cols ≤ 512
  format_eq : s.format = some (((s.terminal.cols : Int) - 36).tdiv 2)

theorem tdiv_eq_nameWidth {cols : ℕ} (h : 36 ≤ cols) :
    ((cols : Int) - 36).tdiv 2 = (nameWidth cols : Int) := by
  have hsub : (cols : Int) - 36 = ((cols - 36 : ℕ) : Int) := by omega
  rw [hsub, nameWidth]
  rfl

theorem formatWidth_of_format {s : Screen} {cols : ℕ} (hcols : 36 ≤ cols)
    (hformat : s.format = some (((cols : Int) - 36).tdiv 2)) :
    s.formatWidth = .ok (nameWidth cols) := by
  rw [tdiv_eq_nameWidth hcols] at hformat
  rw [Screen.formatWidth, hformat]

/-- The screen which the program starts with. -/
def Screen.started (t : Terminal) (garbage : Garbage) : Screen :=
  initFifo (Screen.unset.opened t garbage)

theorem runOps_start (t : Terminal) (garbage : Garbage) :
    runOps [.screenInit t garbage, .initFifo] Screen.unset = .ok (Screen.started t garbage) := by
  have hinit : ScreenOp.perform (.screenInit t garbage) Screen.unset =
      .ok (Screen.unset.opened t garbage) := screenInit_eq t garbage _
  rw [runOps, runSteps_cons_of_ok hinit]
  rfl

theorem Screen.started_fixed {t : Terminal} (garbage : Garbage) (hlines : headLines ≤ t.lines)
    (hlines' : t.lines ≤ 264) (hcols : 38 ≤ t.cols) (hcols' : t.cols ≤ 512) :
    (Screen.started t garbage).Fixed where
  allocated :=
    have h := Screen.unset.opened_allocated t garbage
    ⟨h.numbuff_eq, h.cols_eq, h.rows⟩
  lines_ge := hlines
  lines_le := hlines'
  cols_ge := hcols
  cols_le := hcols'
  format_eq := rfl

/-! ## Rows of a queue -/

/-- The rows hold the texts and nothing else, after `k` packets. -/
structure Screen.Holds (s : Screen) (k : ℕ) (texts : List (List Byte)) : Prop where
  fixed : s.Fixed
  count_eq : s.count = k
  length_eq : texts.length = min k (s.terminal.lines - headLines + 1)
  rows : ∀ i < s.numbuff, ∃ row, s.scrbuff i = some row ∧ texts.getD i [] ++ [nul] <+: row

theorem Screen.Fixed.holds_nil {s : Screen} (h : s.Fixed) (now : Int) :
    (s.cleared now).Holds 0 [] where
  fixed :=
    { allocated := h.allocated.cleared now
      lines_ge := h.lines_ge
      lines_le := h.lines_le
      cols_ge := h.cols_ge
      cols_le := h.cols_le
      format_eq := h.format_eq }
  count_eq := rfl
  length_eq := by simp
  rows i hi := by
    obtain ⟨row, hrow, hlength⟩ := h.allocated.rows i hi
    refine ⟨row.set 0 nul, ?_, ?_⟩
    · show (if i < s.numbuff then (s.scrbuff i).map (·.set 0 nul) else s.scrbuff i) = _
      rw [if_pos (show i < s.numbuff from hi), hrow]
      rfl
    · cases row with
      | nil => simp at hlength
      | cons b row => exact ⟨row, rfl⟩

/-- The row of a packet is shorter than the screen and than the buffer. -/
theorem Screen.Fixed.text_length {s : Screen} (h : s.Fixed) (env : Lookups) {p : PacketCall}
    (htime : (cString p.ttl).length = 8) :
    (s.packetText env p (nameWidth s.terminal.cols)).length < s.cols ∧
      (s.packetText env p (nameWidth s.terminal.cols)).length < bufLength := by
  have hcols := h.cols_ge
  have hcols' := h.cols_le
  have heq := h.allocated.cols_eq
  have hlength : (s.packetText env p (nameWidth s.terminal.cols)).length =
      27 + 2 * nameWidth s.terminal.cols + 8 := by
    rw [← htime]
    exact packetText_length ..
  have hwidth : nameWidth s.terminal.cols = (s.terminal.cols - 36) / 2 := rfl
  have hbuf : bufLength = 512 := rfl
  omega

theorem Screen.Fixed.shown_iff {s : Screen} (h : s.Fixed) :
    s.Shown ↔ s.count < s.terminal.lines - headLines + 1 := by
  have hlines := h.lines_ge
  rw [Screen.Shown]
  omega

theorem Screen.Fixed.lt_numbuff {s : Screen} (h : s.Fixed) {i : ℕ}
    (hi : i < s.terminal.lines - headLines + 1) : i < s.numbuff := by
  have hlines := h.lines_ge
  have hlines' := h.lines_le
  rw [h.allocated.numbuff_eq]
  simp only [headLines, maxbufs] at *
  omega

theorem Screen.Fixed.filled {s : Screen} (h : s.Fixed) (env : Lookups) (p : PacketCall)
    {row : List Byte} (hrow : row.length = s.cols + 1) : (s.filled env p row).Fixed where
  allocated := h.allocated.filled env p hrow
  lines_ge := h.lines_ge
  lines_le := h.lines_le
  cols_ge := h.cols_ge
  cols_le := h.cols_le
  format_eq := h.format_eq

/-- The text of a packet as the screen shows it. -/
def Screen.shownTexts (s : Screen) (a : Arrived) : List (List Byte) :=
  if s.Shown then [s.packetText a.env a.packet (nameWidth s.terminal.cols)] else []

theorem Screen.Holds.doPacket {s : Screen} {k : ℕ} {texts : List (List Byte)}
    (h : s.Holds k texts) (a : Arrived) (htime : (cString a.packet.ttl).length = 8)
    (hint : (k : Int) < intMax) :
    ∃ s', Monitor.doPacket a.env a.packet s = .ok s' ∧ s'.terminal = s.terminal ∧
      s'.Holds (k + 1) (texts ++ s.shownTexts a) := by
  have hfixed := h.fixed
  by_cases hshown : s.Shown
  · -- The row at `count` is the first one behind the texts.
    have hlt := hfixed.shown_iff.mp hshown
    have hk : texts.length = s.count := by
      rw [h.length_eq, ← h.count_eq]
      omega
    obtain ⟨hcols, hbuf⟩ := hfixed.text_length a.env htime
    obtain ⟨row, hrow, hlength⟩ := hfixed.allocated.rows _ (hfixed.lt_numbuff hlt)
    have hcopy : (strncpy row (s.packetText a.env a.packet (nameWidth s.terminal.cols))
        s.cols).length = s.cols + 1 := (strncpy_length (by omega)).trans hlength
    have hwidth := formatWidth_of_format (by have := hfixed.cols_ge; omega) hfixed.format_eq
    refine ⟨_, doPacket_shown hfixed.allocated a.env a.packet hwidth hshown
      (hfixed.lt_numbuff hlt) hbuf hrow, rfl, ?_⟩
    rw [Screen.shownTexts, if_pos hshown]
    exact
      { fixed := hfixed.filled a.env a.packet hcopy
        count_eq := congrArg (· + 1) h.count_eq
        length_eq := by
          have hterminal : ∀ row, (s.filled a.env a.packet row).terminal = s.terminal :=
            fun _ => rfl
          rw [List.length_append, List.length_singleton, hk, hterminal, ← h.count_eq]
          omega
        rows := fun i hi => by
          by_cases heq : i = s.count
          · subst heq
            have hcopied : ∃ rest,
                strncpy row (s.packetText a.env a.packet (nameWidth s.terminal.cols)) s.cols =
                  s.packetText a.env a.packet (nameWidth s.terminal.cols) ++ nul :: rest :=
              strncpy_of_lt hcols
            obtain ⟨rest, hrest⟩ := hcopied
            refine ⟨_, Function.update_self .., ?_⟩
            rw [hrest, ← hk, List.getD_append_right _ _ _ _ le_rfl, Nat.sub_self]
            exact ⟨rest, by simp⟩
          · obtain ⟨row', hrow', hprefix⟩ := h.rows i hi
            refine ⟨row', (Function.update_of_ne heq ..).trans hrow', ?_⟩
            by_cases hi' : i < texts.length
            · rwa [List.getD_append _ _ _ _ hi']
            · rw [List.getD_append_right _ _ _ _ (by omega),
                List.getD_eq_default _ _ (by simp; omega)]
              rwa [List.getD_eq_default _ _ (by omega)] at hprefix }
  · refine ⟨_, doPacket_hidden a.env a.packet hshown (h.count_eq ▸ hint), rfl, ?_⟩
    have hge : ¬ s.count < s.terminal.lines - headLines + 1 := mt hfixed.shown_iff.mpr hshown
    rw [Screen.shownTexts, if_neg hshown, List.append_nil]
    exact
      { fixed :=
          { allocated := ⟨hfixed.allocated.numbuff_eq, hfixed.allocated.cols_eq,
              hfixed.allocated.rows⟩
            lines_ge := hfixed.lines_ge
            lines_le := hfixed.lines_le
            cols_ge := hfixed.cols_ge
            cols_le := hfixed.cols_le
            format_eq := hfixed.format_eq }
        count_eq := congrArg (· + 1) h.count_eq
        length_eq := by
          show texts.length = min (k + 1) (s.terminal.lines - headLines + 1)
          rw [h.length_eq, ← h.count_eq]
          omega
        rows := h.rows }

/-! ## Runs of a queue -/

theorem queueOps_append (now : Int) (packets : List Arrived) (a : Arrived) :
    queueOps now (packets ++ [a]) = queueOps now packets ++ [.doPacket a.env a.packet] := by
  simp [queueOps]

/-- The text of each packet is the one of the call for it, in the state in which the
calls before it leave the screen. -/
def Formats (now : Int) (s : Screen) (packets : List Arrived) (texts : List (List Byte)) : Prop :=
  ∀ i (hi : i < texts.length), ∃ (hi' : i < packets.length) (sᵢ : Screen),
    runOps (queueOps now (packets.take i)) s = .ok sᵢ ∧
      texts[i] = sᵢ.packetText packets[i].env packets[i].packet (nameWidth s.terminal.cols)

theorem Screen.Fixed.run_queue {s : Screen} (h : s.Fixed) (now : Int) {packets : List Arrived}
    (htime : ∀ a ∈ packets, (cString a.packet.ttl).length = 8)
    (hint : (packets.length : Int) ≤ intMax) :
    ∃ s' texts, runOps (queueOps now packets) s = .ok s' ∧ s'.terminal = s.terminal ∧
      s'.Holds packets.length texts ∧ Formats now s packets texts := by
  induction packets using List.reverseRecOn with
  | nil =>
      have hqueue : ScreenOp.perform (.doQueue now) s = .ok (s.cleared now) :=
        doQueue_eq now h.allocated
      refine ⟨s.cleared now, [], runSteps_cons_of_ok hqueue [], rfl, h.holds_nil now, ?_⟩
      intro i hi
      simp at hi
  | append_singleton packets a ih =>
      have hbefore : (packets.length : Int) < intMax := by
        rw [List.length_append, List.length_singleton] at hint
        omega
      obtain ⟨s', texts, hrun, hterminal, hholds, hformats⟩ :=
        ih (fun b hb => htime b (List.mem_append_left _ hb)) hbefore.le
      obtain ⟨s'', hpacket, hterminal', hholds'⟩ := hholds.doPacket a (htime a (by simp)) hbefore
      have hstep : ScreenOp.perform (.doPacket a.env a.packet) s' = .ok s'' := hpacket
      refine ⟨s'', texts ++ s'.shownTexts a, ?_, hterminal'.trans hterminal, ?_, ?_⟩
      · rw [queueOps_append, runOps, runSteps_append_of_ok hrun, runSteps_cons_of_ok hstep]
        rfl
      · rwa [List.length_append, List.length_singleton]
      · intro i hi
        by_cases hold : i < texts.length
        · obtain ⟨hi', sᵢ, hrunᵢ, htext⟩ := hformats i hold
          refine ⟨by simp; omega, sᵢ, ?_, ?_⟩
          · rwa [List.take_append_of_le_length hi'.le]
          · rw [List.getElem_append_left hold, htext]
            simp only [List.getElem_append_left hi']
        · -- The new text is behind the others, and the packet behind the packets.
          have hshown : s'.Shown := by
            by_contra hhidden
            rw [Screen.shownTexts, if_neg hhidden, List.append_nil] at hi
            exact hold hi
          have hlt := hholds.fixed.shown_iff.mp hshown
          have hlength : texts.length = packets.length := by
            rw [hholds.length_eq, ← hholds.count_eq]
            omega
          have heq : i = packets.length := by
            simp only [Screen.shownTexts, if_pos hshown, List.length_append,
              List.length_singleton] at hi
            omega
          subst heq
          refine ⟨by simp, s', ?_, ?_⟩
          · rwa [List.take_append_of_le_length le_rfl, List.take_length]
          · simp [Screen.shownTexts, if_pos hshown, hlength, hterminal]

/-- One packet more than an `int` counts ends the run. -/
theorem Screen.Fixed.run_queue_uncounted
    {s : Screen} (h : s.Fixed) (now : Int) {packets : List Arrived}
    (htime : ∀ a ∈ packets, (cString a.packet.ttl).length = 8)
    (hlong : intMax < (packets.length : Int)) :
    runOps (queueOps now packets) s = .error .counter := by
  have hnat : (intMax.toNat : Int) = intMax := rfl
  have hlimit : ((packets.take intMax.toNat).length : Int) = intMax := by
    rw [List.length_take]
    omega
  obtain ⟨s', texts, hrun, -, hholds, -⟩ :=
    h.run_queue now (fun a ha => htime a (List.mem_of_mem_take ha)) hlimit.le
  have hcount : ¬ (s'.count : Int) < intMax := by
    rw [hholds.count_eq, hlimit]
    exact lt_irrefl _
  have hhidden : ¬ s'.Shown := by
    have hlines := hholds.fixed.lines_le
    rw [hholds.fixed.shown_iff]
    simp only [intMax] at hcount
    omega
  obtain ⟨a, rest, hrest⟩ : ∃ a rest, packets.drop intMax.toNat = a :: rest := by
    apply List.exists_cons_of_length_pos
    rw [List.length_drop]
    omega
  have hstep : ScreenOp.perform (.doPacket a.env a.packet) s' = .error .counter := by
    rw [ScreenOp.perform, doPacket, if_neg hhidden, Screen.counted, if_neg hcount]
  have hops : queueOps now packets = queueOps now (packets.take intMax.toNat) ++
      .doPacket a.env a.packet :: rest.map fun p => .doPacket p.env p.packet := by
    conv_lhs => rw [← List.take_append_drop intMax.toNat packets, hrest]
    simp [queueOps]
  rw [hops, runOps, runSteps_append_of_ok hrun, runSteps_cons_of_error hstep]

/-- The texts in order, and an empty one for each of the `k` rows behind them. -/
def printed (k : ℕ) (texts : List (List Byte)) : List Printed :=
  (List.range k).map fun i => { y := i, x := 0, text := texts.getD i [] }

theorem Screen.Holds.cString_row {s : Screen} {k : ℕ} {texts : List (List Byte)}
    (h : s.Holds k texts) (hnul : ∀ text ∈ texts, nul ∉ text) {i : ℕ} (hi : i < s.numbuff) :
    ∃ row, s.scrbuff i = some row ∧ nul ∈ row ∧ cString row = texts.getD i [] := by
  obtain ⟨row, hrow, rest, hrest⟩ := h.rows i hi
  have htext : nul ∉ texts.getD i [] := by
    by_cases hi' : i < texts.length
    · rw [List.getD_eq_getElem _ _ hi']
      exact hnul _ (List.getElem_mem hi')
    · rw [List.getD_eq_default _ _ (by omega)]
      exact List.not_mem_nil
  refine ⟨row, hrow, ?_, ?_⟩
  · rw [← hrest]
    simp
  · rw [← hrest, List.append_assoc, List.singleton_append, cString_append_nul htext]

theorem Screen.Holds.printPackets {s : Screen} {k : ℕ} {texts : List (List Byte)}
    (h : s.Holds k texts) (hk : 0 < k) (hnul : ∀ text ∈ texts, nul ∉ text) :
    Monitor.printPackets s = .ok (printed (min s.numbuff k) texts) := by
  have hcount : s.count ≠ 0 := by rw [h.count_eq]; omega
  have hrows : printRows s s.numbuff 0 =
      .ok ((List.range' 0 (min s.numbuff (s.count - 0))).map fun j =>
        { y := j, x := 0, text := texts.getD j [] }) :=
    printRows_eq h.fixed.allocated (fun i => texts.getD i []) (by omega) fun i _ hi =>
      h.cString_row hnul (by omega)
  rw [Monitor.printPackets, if_neg hcount, hrows, Nat.sub_zero, h.count_eq, printed,
    List.range_eq_range']

/-- Texts which the calls have formatted are complete rows. -/
theorem Formats.complete {now : Int} {s : Screen} {packets : List Arrived}
    {texts : List (List Byte)} (hformats : Formats now s packets texts) (h : s.Fixed)
    (htime : ∀ a ∈ packets, (cString a.packet.ttl).length = 8)
    (hint : (packets.length : Int) ≤ intMax) :
    ∀ text ∈ texts, nul ∉ text ∧ text.length < bufLength ∧ text.length < s.terminal.cols := by
  intro text hmem
  obtain ⟨i, hi, rfl⟩ := List.getElem_of_mem hmem
  obtain ⟨hi', sᵢ, hrun, htext⟩ := hformats i hi
  have htake : ((packets.take i).length : Int) ≤ intMax := by
    rw [List.length_take]
    omega
  obtain ⟨s', _, hrun', hterminal, hholds, -⟩ :=
    h.run_queue now (fun a ha => htime a (List.mem_of_mem_take ha)) htake
  rw [hrun, Except.ok.injEq] at hrun'
  subst hrun'
  have hlength := hholds.fixed.text_length packets[i].env (htime _ (List.getElem_mem hi'))
  rw [hholds.fixed.allocated.cols_eq, hterminal] at hlength
  rw [htext]
  exact ⟨nul_notMem_packetText _ _ _ _, hlength.2, hlength.1⟩

/-- After a queue, whose length is an `int`, the rows are the texts of its first
packets in their order, and `read_fifo` prints these and nothing else. -/
theorem packetTable_of_queue (s : Screen) (h : s.Fixed) (now : Int) (packets : List Arrived)
    (htime : ∀ a ∈ packets, (cString a.packet.ttl).length = 8)
    (hint : (packets.length : Int) ≤ intMax) :
    ∃ s' texts, runOps (queueOps now packets) s = .ok s' ∧ s'.count = packets.length ∧
      texts.length = min packets.length (s.terminal.lines - headLines + 1) ∧
      Formats now s packets texts ∧
      (∀ text ∈ texts, nul ∉ text ∧ text.length < bufLength ∧ text.length < s'.cols) ∧
      (∀ i < s'.numbuff, ∃ row, s'.scrbuff i = some row ∧ nul ∈ row ∧
        cString row = texts.getD i []) ∧
      printPackets s' = .ok
        (if packets = [] then [{ y := 0, x := 5, text := bytes "No packets queued\n" }]
          else printed (min s'.numbuff packets.length) texts) := by
  obtain ⟨s', texts, hrun, hterminal, hholds, hformats⟩ := h.run_queue now htime hint
  have hcomplete := hformats.complete h htime hint
  have hnul : ∀ text ∈ texts, nul ∉ text := fun text hmem => (hcomplete text hmem).1
  refine ⟨s', texts, hrun, hholds.count_eq, ?_, hformats, ?_, fun i hi => ?_, ?_⟩
  · rw [hholds.length_eq, hterminal]
  · rwa [hholds.fixed.allocated.cols_eq, hterminal]
  · exact hholds.cString_row hnul hi
  · by_cases hempty : packets = []
    · subst hempty
      have hcount : s'.count = 0 := hholds.count_eq
      rw [if_pos rfl, printPackets, if_pos hcount]
    · rw [if_neg hempty]
      exact hholds.printPackets (List.length_pos_iff.mpr hempty) hnul

/-- The library does not know any name. -/
def Lookups.unnamed : Lookups where
  getservbyport _ _ := none
  world :=
    { numeric := true
      now := 0
      currState := []
      rxload := fun _ => 0
      txload := fun _ => 0
      truncLocalHosts := false
      gethostbyaddr := fun _ => .failed .hostNotFound
      getdomainname := []
      garbage := { addr := 0, name := [], trunc := [], timeResolved := 0 } }
  ip1First := false

def PacketCall.web : PacketCall where
  protocol := bytes "tcp"
  ip1 := bytes "10.0.0.1"
  port1 := 80
  ip2 := bytes "10.0.0.2"
  port2 := 1025
  ttl := bytes "00:00:15"

def Arrived.web : Arrived := { env := .unnamed, packet := .web }

theorem packetTable_of_web :
    ∃ s' texts, runOps (queueOps 0 [.web, .web])
        (Screen.started { lines := 24, cols := 80 } fun _ _ => 255) = .ok s' ∧
      s'.count = 2 ∧ texts.length = 2 ∧ Formats 0
        (Screen.started { lines := 24, cols := 80 } fun _ _ => 255) [.web, .web] texts := by
  have hfixed : (Screen.started { lines := 24, cols := 80 } fun _ _ => 255).Fixed :=
    Screen.started_fixed _ (by decide) (by decide) (by decide) (by decide)
  have htime : ∀ a ∈ [Arrived.web, .web], (cString a.packet.ttl).length = 8 := by
    intro a ha
    rw [List.mem_pair, or_self] at ha
    subst ha
    decide
  obtain ⟨s', texts, hrun, hcount, hlength, hformats, -⟩ :=
    packetTable_of_queue _ hfixed 0 [.web, .web] htime (by decide)
  exact ⟨s', texts, hrun, hcount, hlength, hformats⟩

end Monitor

end DialdTop
