import DialdTop.RowIndices

/-!
# Rows which end within their memory

`init_fifo` takes the width of the names from the terminal it finds, while `cols`
and the rows follow every resize.  A row which is as long as the new screen is
wide is copied without its NUL.
-/

namespace DialdTop

namespace Monitor

/-- Every row has a NUL within its memory. -/
def Screen.Terminated (s : Screen) : Prop :=
  ∀ i < s.numbuff, ∃ row, s.scrbuff i = some row ∧ nul ∈ row

/-- The text of a packet which fills a row is shorter than the screen is wide, or
the byte which `strncpy` leaves alone is a NUL. -/
def ScreenOp.EndsRow (op : ScreenOp) (s : Screen) : Prop :=
  match op with
  | .doPacket env p =>
      ∀ w row, s.Shown → s.Prints env p w → s.count < s.numbuff →
        s.scrbuff s.count = some row →
          27 + 2 * w + (cString p.ttl).length < s.cols ∨ nul ∈ row.drop s.cols
  | _ => True

theorem Screen.Terminated.of_rows {s s' : Screen} (h : s.Terminated)
    (hnumbuff : s'.numbuff = s.numbuff) (hscrbuff : s'.scrbuff = s.scrbuff) :
    s'.Terminated := by
  intro i hi
  rw [hnumbuff] at hi
  rw [hscrbuff]
  exact h i hi

theorem Screen.opened_terminated (t : Terminal) (garbage : Garbage) (s : Screen) :
    (s.opened t garbage).Terminated :=
  fun i hi => ⟨freshRow t.cols (garbage i), if_pos hi, nul_mem_freshRow _ _⟩

theorem Screen.Allocated.cleared_terminated {s : Screen} (h : s.Allocated) (now : Int) :
    (s.cleared now).Terminated := by
  intro i hi
  have hi' : i < s.numbuff := hi
  obtain ⟨row, hrow, hlength⟩ := h.rows i hi'
  refine ⟨row.set 0 nul, ?_, List.mem_set (by omega) nul⟩
  show (if i < s.numbuff then (s.scrbuff i).map (·.set 0 nul) else s.scrbuff i) = _
  rw [if_pos hi', hrow]
  rfl

theorem Screen.filled_terminated_iff {s : Screen} (h : s.Terminated) (env : Lookups)
    (p : PacketCall) (row : List Byte) (hcount : s.count < s.numbuff) :
    (s.filled env p row).Terminated ↔ nul ∈ row := by
  constructor
  · intro hfilled
    obtain ⟨row', hrow', hnul⟩ := hfilled s.count hcount
    have hself : (s.filled env p row).scrbuff s.count = some row := Function.update_self ..
    rw [hself, Option.some_inj] at hrow'
    rwa [hrow']
  · intro hnul i hi
    by_cases heq : i = s.count
    · subst heq
      exact ⟨row, Function.update_self .., hnul⟩
    · obtain ⟨row', hrow', hnul'⟩ := h i hi
      exact ⟨row', (Function.update_of_ne heq ..).trans hrow', hnul'⟩

/-- The copy of the text into a row ends within the row. -/
theorem nul_mem_copied_iff (s : Screen) (env : Lookups) (p : PacketCall) (w : ℕ) (row : List Byte) :
    nul ∈ strncpy row (s.packetText env p w) s.cols ↔
      27 + 2 * w + (cString p.ttl).length < s.cols ∨ nul ∈ row.drop s.cols := by
  have htext : (s.packetText env p w).length = 27 + 2 * w + (cString p.ttl).length :=
    packetText_length ..
  rw [nul_mem_strncpy_iff (nul_notMem_packetText s env p w), htext]

/-- A completed step keeps the rows terminated exactly when it ends the row it fills. -/
theorem perform_terminated_iff (op : ScreenOp) (s : Screen) (h : s.Allocated)
    (ht : s.Terminated) :
    (∀ s', op.perform s = .ok s' → s'.Terminated) ↔ op.EndsRow s := by
  constructor
  · intro hnext
    cases op with
    | doPacket env p =>
        intro w row hshown hprints hcount hrow
        have hfilled := doPacket_shown h env p hprints.1 hshown hcount hprints.2 hrow
        rw [← nul_mem_copied_iff s env p, ← Screen.filled_terminated_iff ht env p _ hcount]
        exact hnext _ hfilled
    | _ => exact trivial
  · intro hends s' hstep
    cases perform_rowsStep h hstep with
    | same _ _ hnumbuff hscrbuff => exact ht.of_rows hnumbuff hscrbuff
    | opened t garbage rest => exact rest.opened_terminated t garbage
    | cleared now => exact h.cleared_terminated now
    | @filled env p w row hshown hprints hcount hrow _ =>
        rw [Screen.filled_terminated_iff ht env p _ hcount, nul_mem_copied_iff]
        exact hends w row hshown hprints hcount hrow

/-- All rows end within their memory in every state which a run reaches, exactly when
every packet which fills a row ends it. -/
theorem rows_terminated_iff (t : Terminal) (garbage : Garbage) (ops : List ScreenOp) :
    EveryState ScreenOp.perform Screen.Terminated ops (Screen.started t garbage) ↔
      EveryStep ScreenOp.perform ScreenOp.EndsRow ops (Screen.started t garbage) := by
  have hopened := Screen.unset.opened_allocated t garbage
  have hstarted : (Screen.started t garbage).Allocated := hopened.of_rows rfl rfl rfl rfl
  have hterminated : (Screen.started t garbage).Terminated :=
    (Screen.unset.opened_terminated t garbage).of_rows rfl rfl
  exact everyState_iff_everyStep perform_allocated perform_terminated_iff ops hstarted hterminated

/-- The first row of a queue, filled to its last byte. -/
theorem Screen.Allocated.fill_first {s : Screen} (h : s.Allocated) (ht : s.Terminated)
    {env : Lookups} {p : PacketCall} {w : ℕ} {row : List Byte} (hshown : s.Shown)
    (hprints : s.Prints env p w) (hcount : s.count = 0) (hnumbuff : 0 < s.numbuff)
    (hrow : s.scrbuff 0 = some row)
    (hlong : ¬ (27 + 2 * w + (cString p.ttl).length < s.cols ∨ nul ∈ row.drop s.cols)) :
    ∃ s', doPacket env p s = .ok s' ∧ ¬ s'.Terminated ∧
      printPackets s' = .error .unterminated := by
  have hlt : s.count < s.numbuff := by omega
  rw [← nul_mem_copied_iff s env p w row] at hlong
  set copied := strncpy row (s.packetText env p w) s.cols
  have hlength : copied.length = s.cols + 1 := by
    obtain ⟨row', hrow', hlength⟩ := h.rows 0 hnumbuff
    rw [hrow, Option.some_inj] at hrow'
    subst hrow'
    exact (strncpy_length (by omega)).trans hlength
  have hfilled := h.filled env p hlength
  have hfirst : (s.filled env p copied).scrbuff 0 = some copied := by
    rw [← hcount]
    exact Function.update_self ..
  obtain ⟨left, hleft⟩ := Nat.exists_eq_add_of_lt hnumbuff
  have hleft' : (s.filled env p copied).numbuff = left + 1 := by
    show s.numbuff = left + 1
    omega
  refine ⟨_, doPacket_shown h env p hprints.1 hshown hlt hprints.2 (hcount ▸ hrow), ?_, ?_⟩
  · rwa [Screen.filled_terminated_iff ht env p _ hlt]
  · have hsome : (s.filled env p copied).count ≠ 0 := Nat.succ_ne_zero _
    rw [printPackets, if_neg hsome, hleft', printRows, if_pos (Nat.pos_of_ne_zero hsome),
      hfilled.row (by omega) hfirst]
    exact if_neg hlong

/-- Two names of 22 bytes do not fit a screen of 40 columns, and `malloc` need not leave
a NUL behind them. -/
theorem row_unterminated :
    ∃ (t t' : Terminal) (garbage : Garbage) (s : Screen), 38 ≤ t.cols ∧ 38 ≤ t'.cols ∧
      t.lines ≤ 254 ∧ t'.lines ≤ 254 ∧
      runOps [.doScreenResize t' garbage, .doQueue 0, .doPacket .unnamed .web]
        (Screen.started t garbage) = .ok s ∧ ¬ s.Terminated ∧
      printPackets s = .error .unterminated := by
  let t : Terminal := { lines := 24, cols := 80 }
  let t' : Terminal := { lines := 24, cols := 40 }
  let garbage : Garbage := fun _ _ => 255
  have hstart : (Screen.started t garbage).numbuff < maxbufs := by decide
  obtain ⟨rest, hformat, -, hresize⟩ := doScreenResize_eq t' garbage hstart
  have hopened := rest.opened_allocated t' garbage
  have hqueue := doQueue_eq 0 hopened
  have hwidth : ((rest.opened t' garbage).cleared 0).formatWidth = .ok (nameWidth 80) :=
    formatWidth_of_format (by decide) hformat
  have hlength : (((rest.opened t' garbage).cleared 0).packetText .unnamed .web 22).length = 79 :=
    packetText_length ..
  have hshown : ((0 : ℕ) : Int) ≤ ((24 : ℕ) : Int) - headLines := by decide
  have hprints : ((rest.opened t' garbage).cleared 0).Prints .unnamed .web 22 :=
    ⟨hwidth, by rw [hlength]; decide⟩
  have hrow : ((rest.opened t' garbage).cleared 0).scrbuff 0 =
      some (freshRow 40 fun _ => 255) := rfl
  have hlong : ¬ (27 + 2 * 22 + (cString PacketCall.web.ttl).length < 40 ∨
      nul ∈ (freshRow 40 fun _ => 255).drop 40) := by decide
  obtain ⟨s, hpacket, hterminated, hprint⟩ :=
    (hopened.cleared 0).fill_first (hopened.cleared_terminated 0) hshown hprints rfl
      (Nat.succ_pos 24) hrow hlong
  refine ⟨t, t', garbage, s, by decide, by decide, by decide, by decide, ?_, hterminated, hprint⟩
  have hresize' : ScreenOp.perform (.doScreenResize t' garbage) (Screen.started t garbage) =
      .ok (rest.opened t' garbage) := hresize
  have hqueue' : ScreenOp.perform (.doQueue 0) (rest.opened t' garbage) =
      .ok ((rest.opened t' garbage).cleared 0) := hqueue
  have hpacket' : ScreenOp.perform (.doPacket .unnamed .web)
      ((rest.opened t' garbage).cleared 0) = .ok s := hpacket
  rw [runOps, runSteps_cons_of_ok hresize', runSteps_cons_of_ok hqueue',
    runSteps_cons_of_ok hpacket']
  rfl

end Monitor

end DialdTop
