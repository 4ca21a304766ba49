import DialdTop.InteractiveScanner
import Mathlib.Algebra.Ring.Nat

/-!
# Progress of a scanner

A match is empty when the winning rule has matched nothing but its trailing
context.  Every other match uses up characters, and every report that the input
function has timed out uses up a time-out.
-/

namespace Scanner

variable {α S τ : Type*}

/-! ## What is left of the input -/

def Arrival.size : Arrival α → ℕ
  | .data _ s => s.length + 1
  | .timeout => 0

def Arrival.timeouts : Arrival α → ℕ
  | .data _ _ => 0
  | .timeout => 1

/-- The number of characters which are not consumed yet. -/
def Reader.left (r : Reader α S) : ℕ :=
  r.buffer.length + (r.input.map Arrival.size).sum

/-- The number of time-outs which are not reported yet. -/
def Reader.waits (r : Reader α S) : ℕ :=
  (if r.ended ∧ r.timedOut then 1 else 0) + (r.input.map Arrival.timeouts).sum

/-- The characters before the next time-out. -/
def Reader.upcoming (r : Reader α S) : List α := r.segmented.text

theorem Reader.refill_data
    {stuck : List α → Bool} {r : Reader α S} (hstuck : ¬ stuck r.buffer) (c : α) (s : List α)
    (input : List (Arrival α)) :
    r.refill stuck (.data c s :: input) =
      Reader.refill stuck { r with buffer := r.buffer ++ c :: s, timedOut := false } input :=
  if_neg hstuck

theorem Reader.refill_left (stuck : List α → Bool) (r : Reader α S) (input : List (Arrival α)) :
    (r.refill stuck input).left = { r with input := input }.left := by
  induction input generalizing r with
  | nil => by_cases hstuck : stuck r.buffer <;> simp [Reader.refill, hstuck, Reader.left]
  | cons arrival input ih =>
      by_cases hstuck : stuck r.buffer
      · cases arrival <;> simp [Reader.refill, hstuck]
      · cases arrival with
        | timeout => simp [Reader.refill, hstuck, Reader.left, Arrival.size]
        | data c s =>
            rw [Reader.refill_data hstuck, ih]
            simp only [Reader.left, List.length_append, List.length_cons, List.map_cons,
              List.sum_cons, Arrival.size]
            omega

theorem Reader.refill_waits
    (stuck : List α → Bool) {r : Reader α S} (hended : r.ended = false)
    (input : List (Arrival α)) :
    (r.refill stuck input).waits = { r with input := input }.waits := by
  induction input generalizing r with
  | nil => by_cases hstuck : stuck r.buffer <;> simp [Reader.refill, hstuck, Reader.waits, hended]
  | cons arrival input ih =>
      by_cases hstuck : stuck r.buffer
      · cases arrival <;> simp [Reader.refill, hstuck]
      · cases arrival with
        | timeout => simp [Reader.refill, hstuck, Reader.waits, Arrival.timeouts, hended]
        | data c s =>
            have hrest := ih (r := { r with buffer := r.buffer ++ c :: s, timedOut := false })
              hended
            rw [Reader.refill_data hstuck, hrest]
            simp [Reader.waits, Arrival.timeouts, hended]

/-- Filling the buffer moves characters only, until the match is decided. -/
structure Filled (rules : List (BoundRule α S τ)) (r filled : Reader α S) : Prop where
  left : filled.left = r.left
  waits : filled.waits = r.waits
  upcoming : filled.upcoming = r.upcoming
  mode : filled.mode = r.mode
  decided : filled.ended = true ∨ jammed (enabled rules r.mode) filled.buffer = true

theorem Reader.filled (rules : List (BoundRule α S τ)) (r : Reader α S) :
    Filled rules r (r.fill rules) := by
  by_cases hended : r.ended = true
  · have hfilled : r.fill rules = r := by simp [Reader.fill, hended]
    rw [hfilled]
    exact ⟨rfl, rfl, rfl, rfl, Or.inl hended⟩
  · have hopen : r.ended = false := by simpa using hended
    have hfilled : r.fill rules = r.refill (jammed (enabled rules r.mode)) r.input := by
      simp [Reader.fill, hopen]
    have hspec := Reader.refill_spec (jammed (enabled rules r.mode)) hopen r.input
    rw [hfilled]
    exact ⟨r.refill_left _ _, Reader.refill_waits _ hopen _,
      congrArg Segmented.text hspec.1, hspec.2.2.1, hspec.2.2.2⟩

/-! ## Empty matches -/

/-- The winning rule matches nothing but its trailing context. -/
def Idle (rules : List (BoundRule α S τ)) (m : Mode S) (s : List α) : Prop :=
  ∃ r n, winner (enabled rules m) s = some (r, n) ∧ n ≤ r.contextLength

theorem scanMatch_length_lt_iff
    (eol : α → Bool) (rules : List (BoundRule α S τ)) (m : Mode S) (c : α) (s : List α) :
    (scanMatch eol rules m c s).2.2.length < (c :: s).length ↔ ¬ Idle rules m (c :: s) := by
  unfold scanMatch Idle
  cases hwinner : winner (enabled rules m) (c :: s) with
  | none => simp
  | some result =>
      rcases result with ⟨r, n⟩
      have hrest : ((c :: s).drop (n - r.contextLength)).length < (c :: s).length ↔
          ¬ n ≤ r.contextLength := by
        rw [List.length_drop, List.length_cons]
        omega
      have hidle : (∃ r' n', some (r, n) = some (r', n') ∧ n' ≤ r'.contextLength) ↔
          n ≤ r.contextLength := by
        constructor
        · rintro ⟨r', n', heq, hle⟩
          cases heq
          exact hle
        · exact fun hle => ⟨r, n, rfl, hle⟩
      rw [hidle, ← hrest]
      cases haction : r.action ((c :: s).take (n - r.contextLength)) with
      | none => simp only [haction]
      | some reaction => simp only [haction]

theorem idle_append_of_jammed
    {rules : List (BoundRule α S τ)} {m : Mode S} {s : List α}
    (h : jammed (enabled rules m) s = true) (rest : List α) :
    Idle rules m (s ++ rest) ↔ Idle rules m s := by
  unfold Idle
  rw [winner_of_jammed h rest]

/-! ## Steps of the reader -/

section Step

variable (eol : α → Bool) {rules : List (BoundRule α S τ)} {r : Reader α S}

theorem Reader.step_of_nil (hbuffer : (r.fill rules).buffer = []) :
    r.step eol rules =
      (.eof (r.fill rules).timedOut,
        { r.fill rules with
          ended := false, mode := { (r.fill rules).mode with atBol := true } }) := by
  unfold Reader.step
  simp only [hbuffer]

theorem Reader.step_of_cons {c : α} {s : List α} (hbuffer : (r.fill rules).buffer = c :: s) :
    r.step eol rules =
      ((scanMatch eol rules r.mode c s).1,
        { r.fill rules with
          mode := (scanMatch eol rules r.mode c s).2.1
          buffer := (scanMatch eol rules r.mode c s).2.2 }) := by
  unfold Reader.step
  simp only [hbuffer, (r.filled rules).mode]

theorem scanMatch_token
    {P : τ → Prop} (hrules : ∀ b ∈ rules, ∀ lexeme reaction,
      b.rule.action lexeme = some reaction → P reaction.token)
    {m : Mode S} {c : α} {s : List α} {t : τ} (h : (scanMatch eol rules m c s).1 = .token t) :
    P t := by
  unfold scanMatch at h
  split at h
  next => cases h
  next r n hwinner =>
    rcases List.mem_map.mp (winner_mem hwinner).1 with ⟨b, hb, rfl⟩
    dsimp only at h
    split at h
    next => cases h
    next reaction haction =>
      cases h
      exact hrules b (List.mem_filter.mp hb).1 _ _ haction

/-- What holds of the tokens of all rules holds of the token of a match. -/
theorem Reader.step_token
    {P : τ → Prop} (hrules : ∀ b ∈ rules, ∀ lexeme reaction,
      b.rule.action lexeme = some reaction → P reaction.token)
    {t : τ} {next : Reader α S} (hstep : r.step eol rules = (.token t, next)) : P t := by
  cases hbuffer : (r.fill rules).buffer with
  | nil =>
      rw [Reader.step_of_nil eol hbuffer] at hstep
      cases hstep
  | cons c s =>
      rw [Reader.step_of_cons eol hbuffer] at hstep
      exact scanMatch_token eol hrules (congrArg Prod.fst hstep)

theorem scanMatch_token_of_lang
    {P : τ → Prop} (hrules : ∀ b ∈ rules, ∀ word ∈ b.rule.whole.lang, ∀ reaction,
      b.rule.action (word.take (word.length - b.rule.contextLength)) = some reaction →
        P reaction.token)
    {m : Mode S} {c : α} {s : List α} {t : τ} (h : (scanMatch eol rules m c s).1 = .token t) :
    P t := by
  unfold scanMatch at h
  split at h
  next => cases h
  next r n hwinner =>
    rcases winner_mem hwinner with ⟨hr, hlongest⟩
    rcases (Regex.longest_eq_some_iff _ _ _).mp hlongest with ⟨word, rest, hs, rfl, hword, _⟩
    rcases List.mem_map.mp hr with ⟨b, hb, rfl⟩
    dsimp only at h
    split at h
    next => cases h
    next reaction haction =>
      cases h
      rw [hs, List.take_append_of_le_length (Nat.sub_le _ _)] at haction
      exact hrules b (List.mem_filter.mp hb).1 word hword _ haction

/-- What holds of the tokens of all rules for the words which they match holds
of the token of a match. -/
theorem Reader.step_token_of_lang
    {P : τ → Prop} (hrules : ∀ b ∈ rules, ∀ word ∈ b.rule.whole.lang, ∀ reaction,
      b.rule.action (word.take (word.length - b.rule.contextLength)) = some reaction →
        P reaction.token)
    {t : τ} {next : Reader α S} (hstep : r.step eol rules = (.token t, next)) : P t := by
  cases hbuffer : (r.fill rules).buffer with
  | nil =>
      rw [Reader.step_of_nil eol hbuffer] at hstep
      cases hstep
  | cons c s =>
      rw [Reader.step_of_cons eol hbuffer] at hstep
      exact scanMatch_token_of_lang eol hrules (congrArg Prod.fst hstep)

theorem scanMatch_ne_eof (m : Mode S) (c : α) (s : List α) (timedOut : Bool) :
    (scanMatch eol rules m c s).1 ≠ .eof timedOut := by
  unfold scanMatch
  split
  · simp
  · dsimp only
    split <;> simp

theorem Reader.upcoming_of_nil
    (hlive : Live rules) (hbuffer : (r.fill rules).buffer = []) :
    (r.fill rules).ended = true ∧ r.upcoming = [] := by
  have hfilled := r.filled rules
  have hended : (r.fill rules).ended = true := by
    rcases hfilled.decided with hended | hjammed
    · exact hended
    · rw [hbuffer, hlive] at hjammed
      cases hjammed
  refine ⟨hended, ?_⟩
  rw [← hfilled.upcoming, Reader.upcoming, Reader.segmented, if_pos hended]
  exact hbuffer

/-- The characters in the buffer decide whether the match is empty. -/
theorem Reader.upcoming_of_cons {c : α} {s : List α} (hbuffer : (r.fill rules).buffer = c :: s) :
    r.upcoming.head? = some c ∧ (Idle rules r.mode r.upcoming ↔ Idle rules r.mode (c :: s)) := by
  have hfilled := r.filled rules
  rw [← hfilled.upcoming, Reader.upcoming, Reader.segmented, hbuffer]
  split
  · exact ⟨rfl, Iff.rfl⟩
  next hopen =>
    have hjammed := hfilled.decided.resolve_left hopen
    rw [hbuffer] at hjammed
    exact ⟨rfl, idle_append_of_jammed hjammed _⟩

/-- A match uses up characters unless it is empty, and no time-out. -/
theorem Reader.step_left
    {event : Event τ} {next : Reader α S} (hstep : r.step eol rules = (event, next))
    (hevent : ∀ timedOut, event ≠ .eof timedOut) :
    (next.left < r.left ↔ ¬ Idle rules r.mode r.upcoming) ∧ next.waits = r.waits := by
  have hfilled := r.filled rules
  cases hbuffer : (r.fill rules).buffer with
  | nil =>
      rw [Reader.step_of_nil eol hbuffer] at hstep
      cases hstep
      exact absurd rfl (hevent _)
  | cons c s =>
      rw [Reader.step_of_cons eol hbuffer] at hstep
      cases hstep
      rw [(Reader.upcoming_of_cons hbuffer).2, ← scanMatch_length_lt_iff eol, ← hfilled.left,
        ← hfilled.waits]
      simp only [Reader.left, hbuffer]
      exact ⟨by omega, rfl⟩

/-- The report of a time-out uses it up. -/
theorem Reader.step_eof
    (hlive : Live rules) {timedOut : Bool} {next : Reader α S}
    (hstep : r.step eol rules = (.eof timedOut, next)) :
    r.upcoming = [] ∧ next.left = r.left ∧ (timedOut = true → next.waits + 1 = r.waits) := by
  have hfilled := r.filled rules
  cases hbuffer : (r.fill rules).buffer with
  | nil =>
      rcases Reader.upcoming_of_nil hlive hbuffer with ⟨hended, hupcoming⟩
      rw [Reader.step_of_nil eol hbuffer] at hstep
      cases hstep
      refine ⟨hupcoming, hfilled.left, ?_⟩
      intro htimedOut
      rw [← hfilled.waits]
      simp [Reader.waits, hended, htimedOut]
      omega
  | cons c s =>
      rw [Reader.step_of_cons eol hbuffer] at hstep
      exact absurd (congrArg Prod.fst hstep) (scanMatch_ne_eof eol _ _ _ _)

/-- The report of the end tells why the input function has ended. -/
theorem Reader.step_eof_timedOut
    {timedOut : Bool} {next : Reader α S} (hstep : r.step eol rules = (.eof timedOut, next)) :
    next.timedOut = timedOut := by
  cases hbuffer : (r.fill rules).buffer with
  | nil =>
      rw [Reader.step_of_nil eol hbuffer] at hstep
      cases hstep
      rfl
  | cons c s =>
      rw [Reader.step_of_cons eol hbuffer] at hstep
      exact absurd (congrArg Prod.fst hstep) (scanMatch_ne_eof eol _ _ _ _)

end Step

/-! ## The buffer after a time-out -/

/-- The input function has not just timed out, or the buffer is as described. -/
def Reader.WaitsWith (P : List α → Prop) (r : Reader α S) : Prop :=
  r.timedOut = true → P r.buffer

theorem Reader.refill_waitsWith
    {P : List α → Prop} {stuck : List α → Bool} (hstuck : ∀ s, stuck s = false → P s)
    {r : Reader α S} (h : r.WaitsWith P) (input : List (Arrival α)) :
    (r.refill stuck input).WaitsWith P := by
  induction input generalizing r with
  | nil =>
      rw [Reader.refill]
      split
      · exact h
      · intro htimedOut
        cases htimedOut
  | cons arrival input ih =>
      cases arrival with
      | timeout =>
          rw [Reader.refill]
          split
          · exact h
          next hopen => exact fun _ => hstuck _ (by simpa using hopen)
      | data c s =>
          rw [Reader.refill]
          split
          · exact h
          · apply ih
            intro htimedOut
            cases htimedOut

theorem scanMatch_rest
    (eol : α → Bool) (rules : List (BoundRule α S τ)) (m : Mode S) (c : α) (s : List α) :
    ∃ n, (scanMatch eol rules m c s).2.2 = (c :: s).drop n := by
  unfold scanMatch
  split
  · exact ⟨1, rfl⟩
  · dsimp only
    split
    · exact ⟨_, rfl⟩
    · exact ⟨_, rfl⟩

/-- The input function times out on texts which do not decide the match, and
until it is called again the buffer gets only shorter. -/
theorem Reader.step_waitsWith
    (eol : α → Bool) {rules : List (BoundRule α S τ)} {P : List α → Prop}
    (hrules : ∀ m s, jammed (enabled rules m) s = false → P s)
    (hdrop : ∀ s n, P s → P (s.drop n)) {r : Reader α S} (h : r.WaitsWith P) :
    (r.step eol rules).2.WaitsWith P := by
  have hfilled : (r.fill rules).WaitsWith P := by
    unfold Reader.fill
    split
    · exact h
    · exact Reader.refill_waitsWith (hrules r.mode) h r.input
  cases hbuffer : (r.fill rules).buffer with
  | nil =>
      rw [Reader.step_of_nil eol hbuffer]
      exact hfilled
  | cons c s =>
      rw [Reader.step_of_cons eol hbuffer]
      rcases scanMatch_rest eol rules r.mode c s with ⟨n, hrest⟩
      intro htimedOut
      dsimp only
      rw [hrest, ← hbuffer]
      exact hdrop _ n (hfilled htimedOut)

end Scanner
