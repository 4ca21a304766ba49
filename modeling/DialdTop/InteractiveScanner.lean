import DialdTop.Scanner

/-!
# Scanners with start conditions and an input function

A rule may be bound to start conditions and to the beginning of a line, and its
action may enter another start condition.  The scanner keeps what it has read in
a buffer and calls its input function only where the buffer does not decide the
match.  When the input function delivers nothing, the buffer is scanned as a
whole text, then the end of the file is reported, and reading may go on.

`Segmented` forgets the buffer: it holds the texts between those reports, and
each of them is scanned as a whole.
-/

namespace Scanner

/-- The token which an action returns and the start condition it enters. -/
structure Reaction (S τ : Type*) where
  token : τ
  begins : Option S

structure BoundRule (α S τ : Type*) where
  active : S → Bool
  bol : Bool
  rule : Rule α (Reaction S τ)

/-- The start condition, and whether the next character begins a line. -/
structure Mode (S : Type*) where
  start : S
  atBol : Bool
  deriving DecidableEq

/-- What the input function delivers when it is called. -/
inductive Arrival (α : Type*)
  | data (c : α) (s : List α)
  | timeout
  deriving DecidableEq

/-- The result of one match. -/
inductive Event (τ : Type*)
  | silent
  | token (t : τ)
  | eof (timedOut : Bool)
  deriving DecidableEq

variable {α S τ : Type*}

def enabled (rules : List (BoundRule α S τ)) (m : Mode S) : List (Rule α (Reaction S τ)) :=
  (rules.filter fun r => r.active m.start && (m.atBol || !r.bol)).map BoundRule.rule

/-- An empty match leaves the beginning of the line as it is. -/
def Mode.advance (eol : α → Bool) (m : Mode S) (lexeme : List α) (begins : Option S) : Mode S where
  start := begins.getD m.start
  atBol := (lexeme.getLast?.map eol).getD m.atBol

/-- What one match makes of a text which begins with `c`. -/
def scanMatch (eol : α → Bool) (rules : List (BoundRule α S τ)) (m : Mode S) (c : α)
    (s : List α) : Event τ × Mode S × List α :=
  match winner (enabled rules m) (c :: s) with
  | none => (.silent, m.advance eol [c] none, s)
  | some (r, n) =>
      let lexeme := (c :: s).take (n - r.contextLength)
      let rest := (c :: s).drop (n - r.contextLength)
      match r.action lexeme with
      | none => (.silent, m.advance eol lexeme none, rest)
      | some reaction => (.token reaction.token, m.advance eol lexeme reaction.begins, rest)

/-! ## The buffer -/

/-- `ended` holds when the input function has delivered nothing and the buffer
is not used up; `timedOut` tells why its last call ended. -/
structure Reader (α S : Type*) where
  mode : Mode S
  buffer : List α
  ended : Bool
  timedOut : Bool
  input : List (Arrival α)

/-- No rule can match more than the text. -/
def jammed (rules : List (Rule α τ)) (s : List α) : Bool :=
  rules.all fun r => (r.whole.after s).isEmpty

/-- Calls of the input function until the buffer decides the match. -/
def Reader.refill (stuck : List α → Bool) (r : Reader α S) : List (Arrival α) → Reader α S
  | [] =>
      if stuck r.buffer then { r with input := [] }
      else { r with ended := true, timedOut := false, input := [] }
  | .timeout :: input =>
      if stuck r.buffer then { r with input := .timeout :: input }
      else { r with ended := true, timedOut := true, input := input }
  | .data c s :: input =>
      if stuck r.buffer then { r with input := .data c s :: input }
      else
        Reader.refill stuck { r with buffer := r.buffer ++ c :: s, timedOut := false } input

def Reader.fill (rules : List (BoundRule α S τ)) (r : Reader α S) : Reader α S :=
  if r.ended then r else r.refill (jammed (enabled rules r.mode)) r.input

/-- One match, or the report that the file ends. -/
def Reader.step (eol : α → Bool) (rules : List (BoundRule α S τ)) (r : Reader α S) :
    Event τ × Reader α S :=
  let r := r.fill rules
  match r.buffer with
  | [] => (.eof r.timedOut, { r with ended := false, mode := { r.mode with atBol := true } })
  | c :: s =>
      let scanned := scanMatch eol rules r.mode c s
      (scanned.1, { r with mode := scanned.2.1, buffer := scanned.2.2 })

/-! ## Texts between time-outs -/

/-- The text up to the first time-out, and the texts behind it. -/
def segments : List (Arrival α) → List α × List (List α)
  | [] => ([], [])
  | .timeout :: input => ([], (segments input).1 :: (segments input).2)
  | .data c s :: input => (c :: s ++ (segments input).1, (segments input).2)

structure Segmented (α S : Type*) where
  mode : Mode S
  text : List α
  later : List (List α)

def Segmented.step (eol : α → Bool) (rules : List (BoundRule α S τ)) (a : Segmented α S) :
    Event τ × Segmented α S :=
  match a.text with
  | c :: s =>
      let scanned := scanMatch eol rules a.mode c s
      (scanned.1, { a with mode := scanned.2.1, text := scanned.2.2 })
  | [] =>
      let mode := { a.mode with atBol := true }
      match a.later with
      | [] => (.eof false, { a with mode := mode })
      | text :: later => (.eof true, { mode := mode, text := text, later := later })

def Reader.segmented (r : Reader α S) : Segmented α S :=
  let ahead := segments r.input
  if r.ended then
    { mode := r.mode, text := r.buffer
      later := if r.timedOut then ahead.1 :: ahead.2 else [] }
  else { mode := r.mode, text := r.buffer ++ ahead.1, later := ahead.2 }

/-- The end of the file is the end of the input. -/
def Reader.Consistent (r : Reader α S) : Prop :=
  r.ended = true → r.timedOut = false → r.input = []

/-- Whatever the mode, some rule may still match. -/
def Live (rules : List (BoundRule α S τ)) : Prop :=
  ∀ m, jammed (enabled rules m) ([] : List α) = false

/-! ## The buffer decides -/

theorem winner_of_jammed
    {rules : List (Rule α τ)} {s : List α} (h : jammed rules s = true) (rest : List α) :
    winner rules (s ++ rest) = winner rules s := by
  induction rules with
  | nil => rfl
  | cons r later ih =>
      rw [jammed, List.all_cons, Bool.and_eq_true] at h
      rw [winner, winner, Regex.longest_of_isEmpty h.1, ih h.2]

theorem scanMatch_of_jammed
    {eol : α → Bool} {rules : List (BoundRule α S τ)} {m : Mode S} {c : α} {s : List α}
    (h : jammed (enabled rules m) (c :: s) = true) (rest : List α) :
    scanMatch eol rules m c (s ++ rest) =
      ((scanMatch eol rules m c s).1, (scanMatch eol rules m c s).2.1,
        (scanMatch eol rules m c s).2.2 ++ rest) := by
  have hsame := winner_of_jammed h rest
  rw [List.cons_append] at hsame
  unfold scanMatch
  rw [hsame]
  cases hwinner : winner (enabled rules m) (c :: s) with
  | none => rfl
  | some result =>
      rcases result with ⟨r, n⟩
      have hlength : n - r.contextLength ≤ (c :: s).length :=
        le_trans (Nat.sub_le n _) (Regex.longest_le_length (winner_mem hwinner).2)
      have htake : (c :: (s ++ rest)).take (n - r.contextLength) =
          (c :: s).take (n - r.contextLength) := by
        rw [← List.cons_append, List.take_append_of_le_length hlength]
      have hdrop : (c :: (s ++ rest)).drop (n - r.contextLength) =
          (c :: s).drop (n - r.contextLength) ++ rest := by
        rw [← List.cons_append, List.drop_append_of_le_length hlength]
      simp only [htake, hdrop]
      cases r.action ((c :: s).take (n - r.contextLength)) with
      | none => rfl
      | some reaction => rfl

theorem scanMatch_of_best
    {eol : α → Bool} {rules : List (BoundRule α S τ)} {m : Mode S}
    {before later : List (Rule α (Reaction S τ))} {r : Rule α (Reaction S τ)}
    (henabled : enabled rules m = before ++ r :: later) {c : α} {w rest : List α}
    (hmatch : r.whole.longest (c :: w ++ rest) = some ((c :: w).length + r.contextLength))
    (hbefore : ∀ r' ∈ before, ∀ n, r'.whole.longest (c :: w ++ rest) = some n →
      n < (c :: w).length + r.contextLength)
    (hlater : ∀ r' ∈ later, ∀ n, r'.whole.longest (c :: w ++ rest) = some n →
      n ≤ (c :: w).length + r.contextLength) :
    scanMatch eol rules m c (w ++ rest) =
      match r.action (c :: w) with
      | none => (.silent, m.advance eol (c :: w) none, rest)
      | some reaction => (.token reaction.token, m.advance eol (c :: w) reaction.begins, rest) := by
  have hwinner : winner (enabled rules m) (c :: w ++ rest) =
      some (r, (c :: w).length + r.contextLength) := by
    rw [henabled]
    exact winner_of_best hbefore hmatch hlater
  rw [List.cons_append] at hwinner
  have htake : (c :: (w ++ rest)).take (c :: w).length = c :: w := by
    rw [← List.cons_append, List.take_left]
  have hdrop : (c :: (w ++ rest)).drop (c :: w).length = rest := by
    rw [← List.cons_append, List.drop_left]
  simp only [scanMatch, hwinner, Nat.add_sub_cancel, htake, hdrop]

/-! ## Refinement -/

/-- Reading loses nothing, and goes on until the match is decided. -/
theorem Reader.refill_spec
    (stuck : List α → Bool) {r : Reader α S} (hended : r.ended = false)
    (input : List (Arrival α)) :
    let filled := r.refill stuck input
    filled.segmented = { r with input := input }.segmented ∧ filled.Consistent ∧
      filled.mode = r.mode ∧ (filled.ended = true ∨ stuck filled.buffer = true) := by
  induction input generalizing r with
  | nil =>
      by_cases hstuck : stuck r.buffer = true
      · simp [Reader.refill, hstuck, hended, Reader.Consistent]
      · simp [Reader.refill, hstuck, hended, Reader.Consistent, Reader.segmented, segments]
  | cons arrival input ih =>
      by_cases hstuck : stuck r.buffer = true
      · cases arrival with
        | timeout => simp [Reader.refill, hstuck, hended, Reader.Consistent]
        | data c s => simp [Reader.refill, hstuck, hended, Reader.Consistent]
      · cases arrival with
        | timeout =>
            simp [Reader.refill, hstuck, hended, Reader.Consistent, Reader.segmented, segments]
        | data c s =>
            have hrest :=
              ih (r := { r with buffer := r.buffer ++ c :: s, timedOut := false }) hended
            intro filled
            have hfilled : filled =
                Reader.refill stuck { r with buffer := r.buffer ++ c :: s, timedOut := false }
                  input := by
              simp [filled, Reader.refill, hstuck]
            rw [hfilled]
            refine ⟨hrest.1.trans ?_, hrest.2⟩
            simp [Reader.segmented, hended, segments]

theorem Reader.fill_spec
    (rules : List (BoundRule α S τ)) {r : Reader α S} (h : r.Consistent) :
    let filled := r.fill rules
    filled.segmented = r.segmented ∧ filled.Consistent ∧ filled.mode = r.mode ∧
      (filled.ended = true ∨ jammed (enabled rules r.mode) filled.buffer = true) := by
  intro filled
  by_cases hended : r.ended = true
  · have hfilled : filled = r := by
      simp [filled, Reader.fill, hended]
    rw [hfilled]
    exact ⟨rfl, h, rfl, Or.inl hended⟩
  · have hopen : r.ended = false := by
      simpa using hended
    have hfilled : filled = r.refill (jammed (enabled rules r.mode)) r.input := by
      simp [filled, Reader.fill, hopen]
    rw [hfilled]
    exact Reader.refill_spec _ hopen r.input

/-- The scanner does what it would do if it knew the whole text up to the next
time-out. -/
theorem Reader.step_segmented
    (eol : α → Bool) {rules : List (BoundRule α S τ)} (hlive : Live rules)
    {r : Reader α S} (h : r.Consistent) :
    (r.step eol rules).1 = (r.segmented.step eol rules).1 ∧
      (r.step eol rules).2.segmented = (r.segmented.step eol rules).2 ∧
      (r.step eol rules).2.Consistent := by
  have hspec := Reader.fill_spec rules h
  unfold Reader.step
  rw [← hspec.1]
  rcases hspec with ⟨_, hconsistent, hmode, hdecided⟩
  generalize r.fill rules = filled at *
  rw [← hmode] at hdecided
  rcases filled with ⟨mode, buffer, ended, timedOut, input⟩
  cases buffer with
  | nil =>
      have hended : ended = true := by
        rcases hdecided with hended | hjammed
        · exact hended
        · rw [hlive] at hjammed
          cases hjammed
      subst ended
      cases timedOut with
      | true => exact ⟨rfl, rfl, fun hended => by cases hended⟩
      | false =>
          have hinput : input = [] := hconsistent rfl rfl
          subst input
          exact ⟨rfl, rfl, fun hended => by cases hended⟩
  | cons c s =>
      cases ended with
      | true => exact ⟨rfl, rfl, hconsistent⟩
      | false =>
          have hjammed : jammed (enabled rules mode) (c :: s) = true := by
            rcases hdecided with hended | hjammed
            · cases hended
            · exact hjammed
          have hscan : scanMatch eol rules mode c (s ++ (segments input).1) = _ :=
            scanMatch_of_jammed hjammed (segments input).1
          refine ⟨?_, ?_, fun hended => by cases hended⟩
          · simp only [Reader.segmented, Segmented.step, List.cons_append, hscan,
              Bool.false_eq_true, if_false]
          · simp only [Reader.segmented, Segmented.step, List.cons_append, hscan,
              Bool.false_eq_true, if_false]

end Scanner
