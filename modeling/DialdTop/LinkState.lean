import DialdTop.MonitorStream
import DialdTop.PacketRows
import DialdTop.RowIndices

/-!
# The state of the link

The grammar joins the strings of a STATE record whatever their length, and
`do_state` copies the result into buffers of 256 bytes.  A later redisplay
formats what the buffer then holds, or the empty text after a resize.
-/

namespace DialdTop

open Scanner

namespace Monitor

/-- The tokens of a STATE record with the strings of its second line. -/
def stateTokens (first : List Byte) (more : List (List Byte)) : List Token :=
  lineTokens (symbolToken .state) ++ (first :: more).map (textToken .string) ++
    [symbolToken .newline]

/-- The state of the link and its line fit their buffers, with a NUL behind each. -/
def LinkFits (state : List Byte) : Prop :=
  (cString state).length + 1 ≤ lineLength ∧ (stateLine (cString state)).length + 1 ≤ lineLength

theorem stateLine_length (text : List Byte) : (stateLine text).length = text.length + 24 := by
  have hconstants : (bytes "Link Status:  ").length = 14 ∧ (bytes "          ").length = 10 := by
    decide
  simp only [stateLine, List.length_append, hconstants]
  omega

theorem linkFits_iff (state : List Byte) : LinkFits state ↔ (cString state).length ≤ 231 := by
  rw [LinkFits, stateLine_length, lineLength]
  omega

/-- `do_state` runs through exactly when the state fits and the length of the queue does. -/
theorem doState_eq_ok_iff (state : List Byte) (s : Screen) :
    (∃ s', doState state s = .ok s') ↔
      LinkFits state ∧ (countLine s.count).length + 1 ≤ lineLength := by
  by_cases hfits : LinkFits state
  · by_cases hcount : (countLine s.count).length + 1 ≤ lineLength
    · simp [doState, hfits, hcount, not_lt.mpr hfits.1, not_lt.mpr hfits.2, not_lt.mpr hcount]
    · simp [doState, hfits, hcount, not_lt.mpr hfits.1, not_lt.mpr hfits.2, not_le.mp hcount]
  · have hover : lineLength < (cString state).length + 1 ∨
        lineLength < (stateLine (cString state)).length + 1 := by
      rw [LinkFits, not_and_or, not_le, not_le] at hfits
      exact hfits
    simp only [hfits, false_and, iff_false, not_exists]
    intro s' hok
    simp only [doState] at hok
    split at hok
    · cases hok
    case isFalse hcopied =>
      rw [if_pos (hover.resolve_left hcopied)] at hok
      cases hok

/-! ## Redisplays -/

/-- The operation is not `do_state` for a new record. -/
def ScreenOp.KeepsLink : ScreenOp → Prop
  | .doState _ => False
  | _ => True

theorem linkFits_cString (state : List Byte) : LinkFits (cString state) ↔ LinkFits state := by
  rw [linkFits_iff, linkFits_iff, cString_of_notMem (nul_notMem_cString state)]

theorem linkFits_nil : LinkFits [] := (linkFits_iff []).mpr (Nat.zero_le _)

/-- Other operations keep the state of the link, or cut it off. -/
theorem perform_currState {s s' : Screen} {op : ScreenOp} (hop : op.KeepsLink) (h : s.Allocated)
    (hstep : op.perform s = .ok s') :
    s'.currState = s.currState ∨ s'.currState = [] ∨ s'.currState = cString s.currState := by
  cases op with
  | screenInit t garbage =>
      have hinit := (screenInit_eq t garbage s).symm.trans hstep
      cases hinit
      exact .inr (.inl rfl)
  | doScreenResize t garbage =>
      by_cases hnumbuff : s.numbuff < maxbufs
      · obtain ⟨rest, -, -, hresize⟩ := doScreenResize_eq t garbage hnumbuff
        have hopened := hresize.symm.trans hstep
        cases hopened
        exact .inr (.inl rfl)
      · have hfull : s.numbuff = maxbufs := le_antisymm h.numbuff_le (not_lt.mp hnumbuff)
        simp only [ScreenOp.perform, doScreenResize, hfull, freeRows_of_full, Except.bind] at hstep
        cases hstep
  | initFifo =>
      cases hstep
      exact .inl rfl
  | doQueue now =>
      have hqueue := (doQueue_eq now h).symm.trans hstep
      cases hqueue
      exact .inl rfl
  | doPacket env p =>
      have hpacket := doPacket_step h env p
      rw [show doPacket env p s = .ok s' from hstep] at hpacket
      cases hpacket with
      | hidden => exact .inl rfl
      | filled => exact .inl rfl
  | doState state => exact absurd hop id
  | redraw =>
      rw [redraw_eq_ok hstep]
      exact .inr (.inr rfl)

theorem run_linkFits {ops : List ScreenOp} (hops : ∀ op ∈ ops, op.KeepsLink) {s s' : Screen}
    (h : s.Allocated) (hfits : LinkFits s.currState) (hrun : runOps ops s = .ok s') :
    LinkFits s'.currState := by
  have hinv : ∀ op ∈ ops, ∀ s s', s.Allocated ∧ LinkFits s.currState → op.perform s = .ok s' →
      s'.Allocated ∧ LinkFits s'.currState := by
    rintro op hop s s' ⟨h, hfits⟩ hstep
    refine ⟨perform_allocated op s s' h hstep, ?_⟩
    rcases perform_currState (hops op hop) h hstep with heq | heq | heq
    · rwa [heq]
    · rw [heq]
      exact linkFits_nil
    · rwa [heq, linkFits_cString]
  exact (runSteps_invariant hinv ⟨h, hfits⟩ hrun).2

/-! ## Records -/

theorem Typed.state {t : Token} (h : Typed t) (hkind : t.kind = some .state) :
    t = symbolToken .state := by
  rcases t with ⟨kind, value⟩
  cases hkind
  rcases h with rfl
  rfl

section Record

variable {w : Surroundings} {ts : List Token} {vs : List Value} {e e' : Effects}

/-- The two parts of a STATE record, of which the second has the value for `do_state`. -/
theorem derives_state (htyped : ∀ t ∈ ts, Typed t)
    (h : LR.Derives grammar (perform w) [symbol .state, symbol .stringnl] ts vs e e') :
    ∃ first more v, ts = stateTokens first more ∧ vs = [v, .string (memoryOf first more)] := by
  rcases h.of_single (r := ⟨[tokenSymbol .state, tokenSymbol .newline], .first⟩) rfl with
    ⟨ts₁, ts₂, us, vs', e₁, rfl, rfl, hline, hlater⟩
  rcases hline.of_terminal with ⟨t, _, _, rfl, rfl, hkind, hline⟩
  rcases hline.of_terminal with ⟨nl, _, _, rfl, rfl, hnewline, hnil⟩
  rcases hnil.eq_nil with ⟨rfl, rfl, rfl⟩
  rcases hlater.of_single (r := ⟨[symbol .string, tokenSymbol .newline], .first⟩) rfl with
    ⟨ts₃, ts₄, us', vs'', e₂, rfl, rfl, hstring, hlast⟩
  rcases hlast.eq_nil with ⟨rfl, rfl, rfl⟩
  rcases derives_string (fun t ht => htyped t (by simp [ht])) hstring with
    ⟨first, more, _, _, rfl, rfl, hend⟩
  rcases hend.of_terminal with ⟨nl', _, _, rfl, rfl, hnewline', hnil'⟩
  rcases hnil'.eq_nil with ⟨rfl, rfl, rfl⟩
  rw [(htyped t (by simp)).state hkind, (htyped nl (by simp)).newline hnewline,
    (htyped nl' (by simp)).newline hnewline']
  exact ⟨first, more, _, by simp [stateTokens, lineTokens], rfl⟩

/-- What `do_state` gets from a STATE record fits, then and at every later redisplay,
exactly when the strings of the record have at most 231 bytes. -/
theorem linkState_fits_iff (htyped : ∀ t ∈ ts, Typed t)
    (h : LR.Derives grammar (perform w) [symbol .state, symbol .stringnl] ts vs e e') :
    ∃ first more, ts = stateTokens first more ∧
      (perform w .state vs e').effect.calls = e'.calls ++ [.doState (memoryOf first more)] ∧
      ((LinkFits (memoryOf first more) ∧ ∀ (s s' s'' : Screen) (ops : List ScreenOp),
          s.Allocated → doState (memoryOf first more) s = .ok s' →
            (∀ op ∈ ops, op.KeepsLink) → runOps ops s' = .ok s'' → LinkFits s''.currState) ↔
        ((first :: more).flatMap cString).length ≤ 231) := by
  rcases derives_state htyped h with ⟨first, more, v, rfl, rfl⟩
  refine ⟨first, more, rfl, rfl, ?_⟩
  rw [← cString_memoryOf, ← linkFits_iff]
  constructor
  · intro hfits
    exact hfits.1
  · intro hfits
    refine ⟨hfits, fun s s' s'' ops hs hstate hops hrun => ?_⟩
    have hs' := doState_eq_ok hstate
    refine run_linkFits hops (hs' ▸ hs.of_rows rfl rfl rfl rfl) ?_ hrun
    rw [hs']
    exact (linkFits_cString _).mpr hfits

end Record

theorem stateTokens_derive (w : Surroundings) (first : List Byte) (more : List (List Byte))
    (e : Effects) :
    LR.Derives grammar (perform w) [symbol .state, symbol .stringnl] (stateTokens first more)
      [.undefined, .string (memoryOf first more)] e e := by
  have hstate : Reduces w .state (lineTokens (symbolToken .state)) .undefined e e :=
    reduces_of_rhs (r := ⟨_, .first⟩) List.mem_cons_self
      (.terminal (t := symbolToken .state) rfl (.terminal (t := symbolToken .newline) rfl .nil)) rfl
  have hnewline : LR.Derives grammar (perform w) [tokenSymbol .newline] [symbolToken .newline]
      [.undefined] e e := .terminal (t := symbolToken .newline) rfl .nil
  have hstringnl : Reduces w .stringnl
      ((first :: more).map (textToken .string) ++ [symbolToken .newline])
      (.string (memoryOf first more)) e e :=
    reduces_of_rhs (r := ⟨_, .first⟩) List.mem_cons_self
      ((reduces_strings w first more e).append hnewline) rfl
  rw [stateTokens, List.append_assoc]
  exact hstate.append hstringnl

theorem linkState_fits_iff_up :
    ∃ first more, stateTokens (bytes "GOING") [bytes "UP"] = stateTokens first more ∧
      (perform quiet .state [.undefined, .string (bytes "GOINGUP")] .none).effect.calls =
        [.doState (memoryOf first more)] := by
  have htyped : ∀ t ∈ stateTokens (bytes "GOING") [bytes "UP"], Typed t := by
    simp [stateTokens, lineTokens, Typed, textToken, symbolToken]
  rcases linkState_fits_iff htyped (stateTokens_derive quiet (bytes "GOING") [bytes "UP"] .none)
    with ⟨first, more, htokens, hcalls, -⟩
  exact ⟨first, more, htokens, hcalls⟩

/-- A name of 232 letters. -/
def longName : Word where
  first := 65
  more := List.replicate 231 65
  begins := by decide
  continues := by
    intro c hc
    rw [List.eq_of_mem_replicate hc]
    decide
  notKeyword := by decide

/-- The client copies a name of 232 bytes from the stream behind the end of `line`. -/
theorem linkState_overflows :
    ∃ (rs : List Record) (input : List (Arrival Byte)), received input = stream rs ∧
      .timeout ∉ input ∧ ∃ fuel state,
        madeCalls (readToEof quiet fuel (.start input) .none) = some [.doState state] ∧
        ∀ s, doState state s = .error .overflow := by
  let rs : List Record := [.report (.state longName)]
  have hnonempty : stream rs ≠ [] := by simp [rs, stream, Record.text, Report.lines]
  obtain ⟨c, text, hstream⟩ := List.exists_cons_of_ne_nil hnonempty
  let input : List (Arrival Byte) := [.data c text]
  have hinput : received input = stream rs := by simp [input, received, hstream]
  have hstalls : .timeout ∉ input := by simp [input]
  rcases exists_calls hinput (timesOutBetweenParts_of_data rs hstalls) quiet with ⟨n, hn⟩
  refine ⟨rs, input, hinput, hstalls, n, longName.text, (hn n le_rfl).1, fun s => ?_⟩
  have hlength : (cString longName.text).length = 232 := by
    have htext : longName.text = List.replicate 232 65 := (List.replicate_succ ..).symm
    have hnul : nul ∉ List.replicate 232 (65 : Byte) := by
      intro hmem
      exact absurd (List.eq_of_mem_replicate hmem) (by decide)
    rw [htext, cString_of_notMem hnul, List.length_replicate]
  have hcopied : ¬ lineLength < (cString longName.text).length + 1 := by
    rw [hlength]
    decide
  have hline : lineLength < (stateLine (cString longName.text)).length + 1 := by
    rw [stateLine_length, hlength]
    decide
  simp only [doState, if_neg hcopied, if_pos hline]

end Monitor

end DialdTop
