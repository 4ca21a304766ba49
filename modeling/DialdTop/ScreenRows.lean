import DialdTop.Screen

/-!
# Operations on the rows

`screen_init` allocates a row for each line of the terminal and one more, but not
more than `scrbuff` has room for.  Each operation on the rows has an equation
which says what it leaves in the array.
-/

namespace DialdTop

namespace Monitor

/-- The rows below `numbuff` are allocated, each with `cols + 1` bytes. -/
structure Screen.Allocated (s : Screen) : Prop where
  numbuff_eq : s.numbuff = min (s.terminal.lines + 1) maxbufs
  cols_eq : s.cols = s.terminal.cols
  rows : ∀ i < s.numbuff, ∃ row, s.scrbuff i = some row ∧ row.length = s.cols + 1

theorem freshRow_length (cols : ℕ) (garbage : ℕ → Byte) :
    (freshRow cols garbage).length = cols + 1 := by
  simp [freshRow]

theorem nul_mem_freshRow (cols : ℕ) (garbage : ℕ → Byte) : nul ∈ freshRow cols garbage :=
  List.mem_cons_self

theorem Screen.Allocated.numbuff_le {s : Screen} (h : s.Allocated) : s.numbuff ≤ maxbufs := by
  rw [h.numbuff_eq]
  exact min_le_right _ _

section Access

variable {s : Screen} {i n : ℕ} (h : s.Allocated) (hi : i < s.numbuff)

include h hi

theorem Screen.Allocated.row {row : List Byte} (hrow : s.scrbuff i = some row) :
    s.row i = .ok row := by
  have hpointer : s.pointer i = .ok (some row) := by
    rw [Screen.pointer, if_pos (lt_of_lt_of_le hi h.numbuff_le), hrow]
  rw [Screen.row, hpointer]
  exact if_pos hi

theorem Screen.Allocated.write {row : List Byte} (hrow : s.scrbuff i = some row)
    (hn : n ≤ s.cols + 1) (f : List Byte → List Byte) :
    s.write i n f = .ok { s with scrbuff := Function.update s.scrbuff i (some (f row)) } := by
  have hlength : row.length = s.cols + 1 := by
    obtain ⟨row', hrow', hlength⟩ := h.rows i hi
    rw [hrow, Option.some_inj] at hrow'
    rw [hrow', hlength]
  rw [Screen.write, h.row hi hrow]
  show (if n ≤ row.length then s.assign i (some (f row)) else _) = _
  rw [if_pos (by omega), Screen.assign, if_pos (lt_of_lt_of_le hi h.numbuff_le)]

end Access

/-- A row may be replaced by another of the same size. -/
theorem Screen.Allocated.update {s : Screen} (h : s.Allocated) (i : ℕ) {row : List Byte}
    (hrow : row.length = s.cols + 1) :
    { s with scrbuff := Function.update s.scrbuff i (some row) : Screen }.Allocated where
  numbuff_eq := h.numbuff_eq
  cols_eq := h.cols_eq
  rows j hj := by
    by_cases heq : j = i
    · subst heq
      exact ⟨row, Function.update_self .., hrow⟩
    · obtain ⟨row', hrow', hlength⟩ := h.rows j hj
      exact ⟨row', (Function.update_of_ne heq ..).trans hrow', hlength⟩

/-! ## Allocation -/

theorem allocRows_eq (garbage : Garbage) (lines : ℕ) {left : ℕ} {s : Screen}
    (hleft : s.numbuff + left = maxbufs) :
    allocRows garbage lines left s = .ok
      { s with
        numbuff := max s.numbuff (min (lines + 1) maxbufs)
        scrbuff := fun i =>
          if s.numbuff ≤ i ∧ i < min (lines + 1) maxbufs then
            some (freshRow s.cols (garbage i))
          else s.scrbuff i } := by
  induction left generalizing s with
  | zero =>
      have hmax : max s.numbuff (min (lines + 1) maxbufs) = s.numbuff := by omega
      have hnone : ∀ i, ¬ (s.numbuff ≤ i ∧ i < min (lines + 1) maxbufs) := by
        intro i hi
        omega
      simp only [allocRows, hmax, hnone, if_false]
  | succ left ih =>
      by_cases hlines : s.numbuff ≤ lines
      · have hroom : s.numbuff < maxbufs := by omega
        rw [allocRows, if_pos hlines, Screen.assign, if_pos hroom]
        refine (ih (by show s.numbuff + 1 + left = maxbufs; omega)).trans ?_
        congr 2
        · show max (s.numbuff + 1) _ = _
          omega
        · funext i
          show (if s.numbuff + 1 ≤ i ∧ i < min (lines + 1) maxbufs then _ else
            Function.update s.scrbuff s.numbuff _ i) = _
          by_cases hi : i = s.numbuff
          · subst hi
            rw [if_neg (by omega), if_pos (by omega), Function.update_self]
          · rw [Function.update_of_ne hi]
            by_cases hin : s.numbuff ≤ i ∧ i < min (lines + 1) maxbufs
            · rw [if_pos hin, if_pos (by omega)]
            · rw [if_neg hin, if_neg (by omega)]
      · have hmax : max s.numbuff (min (lines + 1) maxbufs) = s.numbuff := by omega
        have hnone : ∀ i, ¬ (s.numbuff ≤ i ∧ i < min (lines + 1) maxbufs) := by
          intro i hi
          omega
        rw [allocRows, if_neg hlines]
        simp only [hmax, hnone, if_false]

/-- What `screen_init` leaves, whatever the array held. -/
def Screen.opened (t : Terminal) (garbage : Garbage) (s : Screen) : Screen :=
  { s with
    terminal := t
    cols := t.cols
    numbuff := min (t.lines + 1) maxbufs
    scrbuff := fun i =>
      if i < min (t.lines + 1) maxbufs then some (freshRow t.cols (garbage i)) else s.scrbuff i
    currState := []
    ipWidth := ((t.cols : Int) - 36).tdiv 2 }

theorem screenInit_eq (t : Terminal) (garbage : Garbage) (s : Screen) :
    screenInit t garbage s = .ok (s.opened t garbage) := by
  rw [screenInit, allocRows_eq garbage t.lines (Nat.zero_add maxbufs)]
  simp [Screen.opened, Except.bind]

theorem Screen.opened_allocated (t : Terminal) (garbage : Garbage) (s : Screen) :
    (s.opened t garbage).Allocated where
  numbuff_eq := rfl
  cols_eq := rfl
  rows i hi := ⟨freshRow t.cols (garbage i), if_pos hi, freshRow_length _ _⟩

theorem freeRow_eq (i : ℕ) (s : Screen) :
    freeRow i s =
      if i < maxbufs then .ok { s with scrbuff := Function.update s.scrbuff i none }
      else .error .index := by
  unfold freeRow Screen.pointer Screen.assign
  split <;> rfl

/-- Releasing the rows from the last one on. -/
theorem freeRows_eq {n : ℕ} (hn : n < maxbufs) (s : Screen) :
    freeRows n s = .ok
      { s with scrbuff := fun i => if i ≤ n then none else s.scrbuff i } := by
  induction n generalizing s with
  | zero =>
      rw [freeRows, freeRow_eq, if_pos hn]
      congr 2
      funext i
      simp [Function.update_apply]
  | succ n ih =>
      rw [freeRows, freeRow_eq, if_pos hn]
      refine (ih (by omega) _).trans ?_
      congr 2
      funext i
      show (if i ≤ n then none else Function.update s.scrbuff (n + 1) none i) = _
      rw [Function.update_apply]
      grind

/-- The loop of `do_screen_resize` begins at an index which the array does not have
when all of it is in use. -/
theorem freeRows_of_full (s : Screen) : freeRows maxbufs s = .error .index := by
  rw [maxbufs, freeRows, freeRow_eq, if_neg (by decide)]
  rfl

theorem doScreenResize_eq (t : Terminal) (garbage : Garbage) {s : Screen}
    (hs : s.numbuff < maxbufs) :
    ∃ rest : Screen, rest.format = s.format ∧ rest.count = s.count ∧
      doScreenResize t garbage s = .ok (rest.opened t garbage) := by
  rw [doScreenResize, freeRows_eq hs]
  refine ⟨{ s with scrbuff := fun i => if i ≤ s.numbuff then none else s.scrbuff i }, rfl, rfl, ?_⟩
  exact screenInit_eq t garbage _

/-! ## Clearing -/

/-- The rows before `n` are empty, the others as they were. -/
theorem clearRows_eq {n : ℕ} {s : Screen} (h : s.Allocated) (hn : n ≤ s.numbuff) :
    clearRows n s = .ok
      { s with
        scrbuff := fun i =>
          if i < n then (s.scrbuff i).map (·.set 0 nul) else s.scrbuff i } := by
  induction n with
  | zero => simp [clearRows]
  | succ n ih =>
      obtain ⟨row, hrow, hlength⟩ := h.rows n hn
      rw [clearRows, ih (by omega)]
      have hcleared : { s with
          scrbuff := fun i =>
            if i < n then (s.scrbuff i).map (·.set 0 nul) else s.scrbuff i : Screen }.Allocated :=
        { numbuff_eq := h.numbuff_eq
          cols_eq := h.cols_eq
          rows := fun i hi => by
            obtain ⟨row, hrow, hlength⟩ := h.rows i hi
            by_cases hin : i < n
            · exact ⟨row.set 0 nul, by simp [hin, hrow], by simpa using hlength⟩
            · exact ⟨row, by simp [hin, hrow], hlength⟩ }
      have hnext : (if n < n then (s.scrbuff n).map (·.set 0 nul) else s.scrbuff n) =
          some row := by simp [hrow]
      refine (hcleared.write hn hnext (by simp) _).trans ?_
      congr 2
      funext i
      simp only [Function.update_apply]
      by_cases hi : i = n
      · subst hi
        simp [hrow]
      · rw [if_neg hi]
        by_cases hin : i < n
        · rw [if_pos hin, if_pos (by omega)]
        · rw [if_neg hin, if_neg (by omega)]

/-- What `do_queue` leaves. -/
def Screen.cleared (now : Int) (s : Screen) : Screen :=
  { s with
    now := now
    count := 0
    scrbuff := fun i =>
      if i < s.numbuff then (s.scrbuff i).map (·.set 0 nul) else s.scrbuff i }

theorem doQueue_eq (now : Int) {s : Screen} (h : s.Allocated) :
    doQueue now s = .ok (s.cleared now) :=
  clearRows_eq (s := { s with now := now, count := 0 }) ⟨h.numbuff_eq, h.cols_eq, h.rows⟩ le_rfl

theorem Screen.Allocated.cleared {s : Screen} (h : s.Allocated) (now : Int) :
    (s.cleared now).Allocated where
  numbuff_eq := h.numbuff_eq
  cols_eq := h.cols_eq
  rows i hi := by
    obtain ⟨row, hrow, hlength⟩ := h.rows i hi
    refine ⟨row.set 0 nul, ?_, List.length_set.trans hlength⟩
    show (if i < s.numbuff then (s.scrbuff i).map (·.set 0 nul) else s.scrbuff i) = _
    rw [if_pos (show i < s.numbuff from hi), hrow]
    rfl

/-! ## Packets -/

/-- The text of a packet is 27 bytes, the two names and the time. -/
theorem packetText_length (w : ℕ) (protocol name1 destports name2 sourceports ttl : List Byte) :
    (packetText w protocol name1 destports name2 sourceports ttl).length =
      27 + 2 * w + (cString ttl).length := by
  have hconstants : (bytes " ").length = 1 ∧ (bytes "/").length = 1 ∧ (bytes "  ").length = 2 := by
    decide
  simp only [packetText, List.length_append, List.length_singleton, hconstants,
    cutField_length (show (-4 : Int).natAbs = 4 from rfl),
    cutField_length (show (-8 : Int).natAbs = 8 from rfl), cutField_length (Int.natAbs_natCast w)]
  omega

theorem nul_notMem_service (env : Lookups) (port : Int) (proto : List Byte) :
    nul ∉ service env port proto := by
  unfold service
  split
  · exact nul_notMem_cString _
  · intro hmem
    exact nul_notMem_stringField (nul_notMem_printInt port) (List.mem_of_mem_take hmem)

theorem nul_notMem_packetText (s : Screen) (env : Lookups) (p : PacketCall) (w : ℕ) :
    nul ∉ s.packetText env p w := by
  have hconstants : nul ∉ bytes " " ∧ nul ∉ bytes "/" ∧ nul ∉ bytes "  " ∧ nul ∉ [newline] := by
    decide
  simp only [Screen.packetText, packetText, List.mem_append, not_or]
  simp only [hconstants, nul_notMem_cutField, nul_notMem_cString, nul_notMem_service,
    not_false_eq_true, and_self]

/-- What `do_packet` leaves when it fills a row. -/
def Screen.filled (s : Screen) (env : Lookups) (p : PacketCall) (row : List Byte) : Screen :=
  { s with
    hosts := (resolveBoth env p s).2.2
    scrbuff := Function.update s.scrbuff s.count (some row)
    count := s.count + 1 }

theorem doPacket_shown {s : Screen} (h : s.Allocated) (env : Lookups) (p : PacketCall) {w : ℕ}
    (hw : s.formatWidth = .ok w) (hshown : s.Shown) (hcount : s.count < s.numbuff)
    (hfits : (s.packetText env p w).length < bufLength) {row : List Byte}
    (hrow : s.scrbuff s.count = some row) :
    doPacket env p s =
      .ok (s.filled env p (strncpy row (s.packetText env p w) s.cols)) := by
  have hh : { s with hosts := (resolveBoth env p s).2.2 : Screen }.Allocated :=
    ⟨h.numbuff_eq, h.cols_eq, h.rows⟩
  have hshow : showPacket env p s = .ok
      { s with
        hosts := (resolveBoth env p s).2.2
        scrbuff := Function.update s.scrbuff s.count
          (some (strncpy row (s.packetText env p w) s.cols)) } := by
    have hroom : ¬ bufLength < (s.packetText env p w).length + 1 := by omega
    simp only [showPacket, hw, Except.bind, if_neg hroom]
    exact hh.write (i := s.count) hcount hrow (Nat.le_succ _) _
  have hint : (s.count : Int) < intMax := by
    have hnumbuff := h.numbuff_le
    simp only [maxbufs, intMax] at *
    omega
  rw [doPacket, if_pos hshown, hshow, Except.bind, Screen.counted]
  dsimp only
  rw [if_pos hint]
  rfl

theorem doPacket_hidden {s : Screen} (env : Lookups) (p : PacketCall) (hshown : ¬ s.Shown)
    (hint : (s.count : Int) < intMax) :
    doPacket env p s = .ok { s with count := s.count + 1 } := by
  rw [doPacket, if_neg hshown, Screen.counted, if_pos hint]

/-- `sprintf` writes the text of the packet within `buf`. -/
def Screen.Prints (s : Screen) (env : Lookups) (p : PacketCall) (w : ℕ) : Prop :=
  s.formatWidth = .ok w ∧ (s.packetText env p w).length < bufLength

/-- What a call of `do_packet` can do. -/
inductive PacketStep (env : Lookups) (p : PacketCall) (s : Screen) :
    Except ScreenFault Screen → Prop
  | hidden (hshown : ¬ s.Shown) : PacketStep env p s (.ok { s with count := s.count + 1 })
  | uncounted (hshown : ¬ s.Shown) : PacketStep env p s (.error .counter)
  | unprintable {e : ScreenFault} (hshown : s.Shown) (hprints : ∀ w, ¬ s.Prints env p w)
      (he : e = .format ∨ e = .overflow) : PacketStep env p s (.error e)
  | filled {w : ℕ} {row : List Byte} (hshown : s.Shown) (hprints : s.Prints env p w)
      (hcount : s.count < s.numbuff) (hrow : s.scrbuff s.count = some row)
      (hlength : row.length = s.cols + 1) :
      PacketStep env p s (.ok (s.filled env p (strncpy row (s.packetText env p w) s.cols)))
  | outside {w : ℕ} (hshown : s.Shown) (hprints : s.Prints env p w) (hcount : maxbufs ≤ s.count) :
      PacketStep env p s (.error .index)

theorem showPacket_outside {s : Screen} {env : Lookups} {p : PacketCall} {w : ℕ}
    (hprints : s.Prints env p w) (hcount : maxbufs ≤ s.count) :
    showPacket env p s = .error .index := by
  have hroom : ¬ bufLength < (s.packetText env p w).length + 1 := by
    have := hprints.2
    omega
  simp only [showPacket, hprints.1, Except.bind, if_neg hroom, Screen.write, Screen.row,
    Screen.pointer, if_neg (not_lt.mpr hcount)]

theorem Screen.Shown.lt_numbuff {s : Screen} (hshown : s.Shown) (h : s.Allocated)
    (hcount : s.count < maxbufs) : s.count < s.numbuff := by
  rw [Screen.Shown] at hshown
  rw [h.numbuff_eq]
  omega

theorem doPacket_step {s : Screen} (h : s.Allocated) (env : Lookups) (p : PacketCall) :
    PacketStep env p s (doPacket env p s) := by
  by_cases hshown : s.Shown
  · by_cases hprints : ∃ w, s.Prints env p w
    · obtain ⟨w, hprints⟩ := hprints
      by_cases hcount : s.count < maxbufs
      · have hlt := hshown.lt_numbuff h hcount
        obtain ⟨row, hrow, hlength⟩ := h.rows _ hlt
        rw [doPacket_shown h env p hprints.1 hshown hlt hprints.2 hrow]
        exact .filled hshown hprints hlt hrow hlength
      · rw [not_lt] at hcount
        rw [doPacket, if_pos hshown, showPacket_outside hprints hcount]
        exact .outside hshown hprints hcount
    · rw [not_exists] at hprints
      rw [doPacket, if_pos hshown, showPacket]
      cases hwidth : s.formatWidth with
      | error e =>
          have he : e = .format := by
            unfold Screen.formatWidth at hwidth
            split at hwidth
            · cases hwidth
            · cases hwidth
              rfl
          exact .unprintable hshown hprints (.inl he)
      | ok w =>
          have hlong : bufLength < (s.packetText env p w).length + 1 := by
            by_contra hfits
            exact hprints w ⟨hwidth, by omega⟩
          simp only [Except.bind, if_pos hlong]
          exact .unprintable hshown hprints (.inr rfl)
  · by_cases hint : (s.count : Int) < intMax
    · rw [doPacket_hidden env p hshown hint]
      exact .hidden hshown
    · rw [doPacket, if_neg hshown, Screen.counted, if_neg hint]
      exact .uncounted hshown

theorem Screen.Allocated.filled {s : Screen} (h : s.Allocated) (env : Lookups) (p : PacketCall)
    {row : List Byte} (hrow : row.length = s.cols + 1) : (s.filled env p row).Allocated :=
  have hupdate := h.update s.count hrow
  ⟨hupdate.numbuff_eq, hupdate.cols_eq, hupdate.rows⟩

/-! ## Printing -/

/-- Rows which end within their memory are printed one below the other. -/
theorem printRows_eq {s : Screen} (h : s.Allocated) (text : ℕ → List Byte) {left i : ℕ}
    (hi : i + left ≤ s.numbuff)
    (hrows : ∀ j, i ≤ j → j < i + left →
      ∃ row, s.scrbuff j = some row ∧ nul ∈ row ∧ cString row = text j) :
    printRows s left i = .ok ((List.range' i (min left (s.count - i))).map fun j =>
      { y := j, x := 0, text := text j }) := by
  induction left generalizing i with
  | zero => simp [printRows]
  | succ left ih =>
      by_cases hcount : i < s.count
      · obtain ⟨row, hrow, hnul, htext⟩ := hrows i le_rfl (by omega)
        have hmore := ih (i := i + 1) (by omega) fun j hj hj' => hrows j (by omega) (by omega)
        have hlength : min (left + 1) (s.count - i) = min left (s.count - (i + 1)) + 1 := by omega
        rw [printRows, if_pos hcount, h.row (by omega) hrow, hlength, List.range'_succ,
          List.map_cons, ← htext]
        show (if nul ∈ row then _ else _) = _
        rw [if_pos hnul, hmore]
        rfl
      · have hlength : min (left + 1) (s.count - i) = 0 := by omega
        rw [printRows, if_neg hcount, hlength]
        rfl

/-- Printing allocated rows fails only at one without a NUL. -/
theorem printRows_error {s : Screen} (h : s.Allocated) {left i : ℕ} (hi : i + left ≤ s.numbuff)
    {e : ScreenFault} (herror : printRows s left i = .error e) : e = .unterminated := by
  induction left generalizing i with
  | zero => cases herror
  | succ left ih =>
      rw [printRows] at herror
      split at herror
      case isFalse => cases herror
      case isTrue hcount =>
        obtain ⟨row, hrow, -⟩ := h.rows i (by omega)
        rw [h.row (by omega) hrow] at herror
        simp only [Except.bind] at herror
        split at herror
        case isFalse =>
          cases herror
          rfl
        case isTrue =>
          cases hmore : printRows s left (i + 1) with
          | error e' =>
              rw [hmore] at herror
              cases herror
              exact ih (by omega) hmore
          | ok more =>
              rw [hmore] at herror
              cases herror

end Monitor

end DialdTop
