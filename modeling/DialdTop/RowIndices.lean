import DialdTop.PacketTable

/-!
# Indices of the rows

`do_packet` compares `count` with the height of the terminal and not with the
length of `scrbuff`, and `do_screen_resize` begins to release the rows at
`numbuff` itself.  Both leave the array when the terminal is too high for it.
-/

namespace DialdTop

namespace Monitor

/-- An access outside of `scrbuff`, or to a row which is none of the `numbuff` rows. -/
def ScreenFault.Misplaced (e : ScreenFault) : Prop := e = .index ∨ e = .row

/-- The array has a row for the packet which is to be shown, or one behind the last
row which is to be released. -/
def ScreenOp.InRange (op : ScreenOp) (s : Screen) : Prop :=
  match op with
  | .doScreenResize _ _ => s.terminal.lines < 255
  | .doPacket env p => s.Shown → (∃ w, s.Prints env p w) → s.count < maxbufs
  | _ => True

theorem Screen.Allocated.of_rows {s s' : Screen} (h : s.Allocated)
    (hterminal : s'.terminal = s.terminal) (hcols : s'.cols = s.cols)
    (hnumbuff : s'.numbuff = s.numbuff) (hscrbuff : s'.scrbuff = s.scrbuff) : s'.Allocated where
  numbuff_eq := by rw [hnumbuff, hterminal, h.numbuff_eq]
  cols_eq := by rw [hcols, hterminal, h.cols_eq]
  rows i hi := by
    rw [hnumbuff] at hi
    rw [hscrbuff, hcols]
    exact h.rows i hi

theorem doState_eq_ok {state : List Byte} {s s' : Screen} (h : doState state s = .ok s') :
    s' = { s with currState := cString state } := by
  simp only [doState] at h
  split at h
  · cases h
  split at h
  · cases h
  split at h
  · cases h
  · cases h
    rfl

theorem doState_error {state : List Byte} {s : Screen} {e : ScreenFault}
    (h : doState state s = .error e) : e = .overflow := by
  simp only [doState] at h
  split at h
  · cases h
    rfl
  split at h
  · cases h
    rfl
  split at h
  · cases h
    rfl
  · cases h

theorem redraw_eq_ok {s s' : Screen} (h : redraw s = .ok s') :
    s' = { s with currState := cString s.currState } := by
  unfold redraw at h
  cases hstate : doState s.currState s with
  | error e =>
      rw [hstate] at h
      cases h
  | ok s₁ =>
      rw [hstate] at h
      have heq := doState_eq_ok hstate
      simp only [Except.bind] at h
      split at h
      · cases h
      · cases h
        exact heq

/-- What a completed operation does to the rows. -/
inductive RowsStep (s : Screen) : ScreenOp → Screen → Prop
  | same {op : ScreenOp} {s' : Screen} (hterminal : s'.terminal = s.terminal)
      (hcols : s'.cols = s.cols) (hnumbuff : s'.numbuff = s.numbuff)
      (hscrbuff : s'.scrbuff = s.scrbuff) : RowsStep s op s'
  | opened {op : ScreenOp} (t : Terminal) (garbage : Garbage) (rest : Screen) :
      RowsStep s op (rest.opened t garbage)
  | cleared (now : Int) : RowsStep s (.doQueue now) (s.cleared now)
  | filled {env : Lookups} {p : PacketCall} {w : ℕ} {row : List Byte} (hshown : s.Shown)
      (hprints : s.Prints env p w) (hcount : s.count < s.numbuff)
      (hrow : s.scrbuff s.count = some row) (hlength : row.length = s.cols + 1) :
      RowsStep s (.doPacket env p)
        (s.filled env p (strncpy row (s.packetText env p w) s.cols))

theorem perform_rowsStep {op : ScreenOp} {s s' : Screen} (h : s.Allocated)
    (hstep : op.perform s = .ok s') : RowsStep s op s' := by
  cases op with
  | screenInit t garbage =>
      have hinit := (screenInit_eq t garbage s).symm.trans hstep
      cases hinit
      exact .opened t garbage s
  | doScreenResize t garbage =>
      by_cases hnumbuff : s.numbuff < maxbufs
      · obtain ⟨rest, -, -, hresize⟩ := doScreenResize_eq t garbage hnumbuff
        have hopened := hresize.symm.trans hstep
        cases hopened
        exact .opened t garbage rest
      · have hfull : s.numbuff = maxbufs := le_antisymm h.numbuff_le (not_lt.mp hnumbuff)
        simp only [ScreenOp.perform, doScreenResize, hfull, freeRows_of_full, Except.bind] at hstep
        cases hstep
  | initFifo =>
      cases hstep
      exact .same rfl rfl rfl rfl
  | doQueue now =>
      have hqueue := (doQueue_eq now h).symm.trans hstep
      cases hqueue
      exact .cleared now
  | doPacket env p =>
      have hpacket := doPacket_step h env p
      rw [show doPacket env p s = .ok s' from hstep] at hpacket
      cases hpacket with
      | hidden => exact .same rfl rfl rfl rfl
      | filled hshown hprints hcount hrow hlength =>
          exact .filled hshown hprints hcount hrow hlength
  | doState state =>
      rw [doState_eq_ok hstep]
      exact .same rfl rfl rfl rfl
  | redraw =>
      rw [redraw_eq_ok hstep]
      exact .same rfl rfl rfl rfl

theorem perform_allocated (op : ScreenOp) (s s' : Screen) (h : s.Allocated)
    (hstep : op.perform s = .ok s') : s'.Allocated := by
  cases perform_rowsStep h hstep with
  | same hterminal hcols hnumbuff hscrbuff => exact h.of_rows hterminal hcols hnumbuff hscrbuff
  | opened t garbage rest => exact rest.opened_allocated t garbage
  | cleared now => exact h.cleared now
  | filled _ _ _ _ hlength => exact h.filled _ _ ((strncpy_length (by omega)).trans hlength)

theorem Screen.Allocated.lines_lt_iff {s : Screen} (h : s.Allocated) :
    s.terminal.lines < 255 ↔ s.numbuff < maxbufs := by
  rw [h.numbuff_eq, maxbufs]
  omega

theorem redraw_error {s : Screen} (h : s.Allocated) {e : ScreenFault}
    (herror : redraw s = .error e) : e = .overflow ∨ e = .unterminated := by
  unfold redraw at herror
  cases hstate : doState s.currState s with
  | error e' =>
      rw [hstate] at herror
      cases herror
      exact .inl (doState_error hstate)
  | ok s₁ =>
      have heq := doState_eq_ok hstate
      have h₁ : s₁.Allocated := by
        rw [heq]
        exact h.of_rows rfl rfl rfl rfl
      rw [hstate] at herror
      cases hprint : printPackets s₁ with
      | error e' =>
          simp only [Except.bind, hprint] at herror
          cases herror
          unfold printPackets at hprint
          split at hprint
          · cases hprint
          · exact .inr (printRows_error h₁ (by omega) hprint)
      | ok ps =>
          simp only [Except.bind, hprint] at herror
          cases herror

/-- A step leaves the array only where `InRange` says. -/
theorem perform_misplaced_iff (op : ScreenOp) (s : Screen) (h : s.Allocated) :
    (∀ e, op.perform s = .error e → ¬ e.Misplaced) ↔ op.InRange s := by
  cases op with
  | screenInit t garbage => simp [ScreenOp.perform, screenInit_eq, ScreenOp.InRange]
  | doScreenResize t garbage =>
      rw [ScreenOp.InRange, h.lines_lt_iff]
      by_cases hnumbuff : s.numbuff < maxbufs
      · obtain ⟨rest, -, -, hresize⟩ := doScreenResize_eq t garbage hnumbuff
        simp [ScreenOp.perform, hresize, hnumbuff]
      · have hfull : s.numbuff = maxbufs := le_antisymm h.numbuff_le (not_lt.mp hnumbuff)
        have hfault : ScreenOp.perform (.doScreenResize t garbage) s = .error .index := by
          simp only [ScreenOp.perform, doScreenResize, hfull, freeRows_of_full, Except.bind]
        simp [hfault, hnumbuff, ScreenFault.Misplaced]
  | initFifo => simp [ScreenOp.perform, ScreenOp.InRange]
  | doQueue now => simp [ScreenOp.perform, doQueue_eq now h, ScreenOp.InRange]
  | doPacket env p =>
      have hstep := doPacket_step h env p
      rw [ScreenOp.InRange]
      change (∀ e, doPacket env p s = .error e → ¬ e.Misplaced) ↔ _
      generalize doPacket env p s = r at hstep
      cases hstep with
      | hidden hshown => simp [hshown]
      | uncounted hshown => simp [hshown, ScreenFault.Misplaced]
      | unprintable hshown hprints he =>
          have hnone : ¬ ∃ w, s.Prints env p w := by
            rintro ⟨w, hw⟩
            exact hprints w hw
          rcases he with rfl | rfl
          · simp [hnone, ScreenFault.Misplaced]
          · simp [hnone, ScreenFault.Misplaced]
      | filled hshown hprints hcount hrow hlength =>
          have hlt := lt_of_lt_of_le hcount h.numbuff_le
          simp [hlt]
      | outside hshown hprints hcount =>
          have hex : ∃ w, s.Prints env p w := ⟨_, hprints⟩
          simp [hshown, hex, ScreenFault.Misplaced, hcount]
  | doState state =>
      simp only [ScreenOp.InRange, iff_true]
      intro e herror
      rw [doState_error herror]
      simp [ScreenFault.Misplaced]
  | redraw =>
      simp only [ScreenOp.InRange, iff_true]
      intro e herror
      rcases redraw_error h herror with rfl | rfl
      · simp [ScreenFault.Misplaced]
      · simp [ScreenFault.Misplaced]

/-- A run from `screen_init` on stays within the array and its rows exactly when
every resize finds a terminal of less than 255 lines, and every packet which is
formatted to be shown finds less than `MAXBUFS` packets in front of it. -/
theorem rows_placed_iff (t : Terminal) (garbage : Garbage) (ops : List ScreenOp) :
    (∀ e, runOps (.screenInit t garbage :: ops) Screen.unset = .error e → ¬ e.Misplaced) ↔
      EveryStep ScreenOp.perform ScreenOp.InRange ops (Screen.unset.opened t garbage) := by
  have hinit : ScreenOp.perform (.screenInit t garbage) Screen.unset =
      .ok (Screen.unset.opened t garbage) := screenInit_eq t garbage _
  rw [runOps, runSteps_cons_of_ok hinit]
  exact avoids_iff_everyStep perform_allocated perform_misplaced_iff ops
    (Screen.unset.opened_allocated t garbage)

/-- A terminal of 255 lines fills the array, and the resize after it reads behind
the array. -/
theorem resize_misplaced :
    ∃ t : Terminal, ∃ garbage : Garbage, 1 ≤ t.lines ∧ 1 ≤ t.cols ∧
      runOps [.screenInit t garbage, .initFifo, .doScreenResize t garbage] Screen.unset =
        .error .index := by
  refine ⟨{ lines := 255, cols := 80 }, fun _ _ => 255, by decide, by decide, ?_⟩
  set t : Terminal := { lines := 255, cols := 80 }
  have hstart := runOps_start t fun _ _ => 255
  have hfull : (Screen.started t fun _ _ => 255).numbuff = maxbufs := rfl
  have hfault : ScreenOp.perform (.doScreenResize t fun _ _ => 255)
      (Screen.started t fun _ _ => 255) = .error .index := by
    simp only [ScreenOp.perform, doScreenResize, hfull, freeRows_of_full, Except.bind]
  exact (runSteps_append_of_ok hstart _).trans (runSteps_cons_of_error hfault _)

end Monitor

end DialdTop
