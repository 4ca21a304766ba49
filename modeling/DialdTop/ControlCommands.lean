import DialdTop.LineEndings

/-!
# Commands for diald

A line typed at the prompt is cut at its first blank and compared with the table
of commands.  The comparison has the length of the table entry, so that it accepts
every word which begins with a command.
-/

namespace DialdTop

namespace Monitor

/-- The blanks of `isspace` in the C locale. -/
def isspace (c : Byte) : Bool := c = 32 ∨ (9 ≤ c ∧ c ≤ 13)

def cmd : List (List Byte) :=
  [bytes "up", bytes "down", bytes "force", bytes "unforce", bytes "block", bytes "unblock",
    bytes "quit", bytes "delayed-quit", bytes "reset"]

def strstrip (line : List Byte) : List Byte := line.takeWhile fun c => ! isspace c

/-- The loop of `validate_command`, which cuts the line in place. -/
def validateLoop : List (List Byte) → List Byte → List Byte
  | [], _ => []
  | entry :: later, command =>
      let command := strstrip command
      if strncasecmp entry command entry.length = 0 then entry else validateLoop later command

/-- What `validate_command` leaves in the buffer. -/
def validateCommand (command : List Byte) : List Byte := validateLoop cmd command

/-- What `fifo_command` writes to `controlfd`. -/
def fifoCommand (command : List Byte) : List (List Byte) :=
  if command.length = 0 then [] else [command ++ [newline]]

/-! ## Words -/

/-- The first word of a line, behind the blanks in front of it. -/
def firstWord (line : List Byte) : List Byte := strstrip (line.dropWhile isspace)

/-- The word is a command, ignoring case. -/
def IsCommand (word : List Byte) : Prop := ∃ entry ∈ cmd, EqIgnoringCase entry word

instance (word : List Byte) : Decidable (IsCommand word) :=
  inferInstanceAs (Decidable (∃ entry ∈ cmd, EqIgnoringCase entry word))

/-- The buffer is the command which the first word is, or empty; and no command is sent
when the first word is none. -/
def SendsWholeCommand (line : List Byte) : Prop :=
  (validateCommand line = [] ∨
    validateCommand line ∈ cmd ∧ EqIgnoringCase (validateCommand line) (firstWord line)) ∧
  (¬ IsCommand (firstWord line) → fifoCommand (validateCommand line) = [])

theorem strstrip_idem (line : List Byte) : strstrip (strstrip line) = strstrip line := by
  rw [strstrip, List.takeWhile_eq_self_iff]
  intro c hc
  exact List.mem_takeWhile_imp (p := fun c => ! isspace c) hc

theorem strncasecmp_zero_comm (a b : List Byte) (n : ℕ) :
    strncasecmp a b n = 0 ↔ strncasecmp b a n = 0 := by
  induction n generalizing a b with
  | zero => simp [strncasecmp]
  | succ n ih =>
      cases a with
      | nil =>
          cases b with
          | nil => rfl
          | cons d b => simp [strncasecmp]
      | cons c a =>
          cases b with
          | nil => simp [strncasecmp]
          | cons d b =>
              by_cases heq : tolower c = tolower d
              · by_cases hc : c = nul
                · by_cases hd : d = nul
                  · simp [strncasecmp, hc, hd]
                  · exact absurd (heq.symm.trans (congrArg tolower hc)) (tolower_ne_nul hd)
                · by_cases hd : d = nul
                  · exact absurd (heq.trans (congrArg tolower hd)) (tolower_ne_nul hc)
                  · simp [strncasecmp, heq, hc, hd, ih a b]
              · have hother : tolower d ≠ tolower c := Ne.symm heq
                exact iff_of_false (strncasecmp_ne_zero heq a b n)
                  (strncasecmp_ne_zero hother b a n)

theorem validateLoop_eq (entries : List (List Byte)) (hnul : ∀ entry ∈ entries, nul ∉ entry)
    (command : List Byte) :
    validateLoop entries command =
      (entries.find? fun entry => BeginsWith (strstrip command) entry).getD [] := by
  induction entries generalizing command with
  | nil => rfl
  | cons entry later ih =>
      rw [List.forall_mem_cons] at hnul
      have hbegins : strncasecmp entry (strstrip command) entry.length = 0 ↔
          BeginsWith (strstrip command) entry :=
        (strncasecmp_zero_comm _ _ _).trans (strncasecmp_eq_zero_iff _ _ hnul.1)
      by_cases h : BeginsWith (strstrip command) entry
      · simp [validateLoop, hbegins, h]
      · simp [validateLoop, hbegins, h, ih hnul.2, strstrip_idem]

/-! ## Entries of the table -/

theorem cmd_nul : ∀ entry ∈ cmd, nul ∉ entry := by decide

theorem cmd_nonempty : ∀ entry ∈ cmd, entry ≠ [] := by decide

/-- No command begins with another one. -/
theorem cmd_prefixFree : ∀ a ∈ cmd, ∀ b ∈ cmd, BeginsWith a b → a = b := by decide

theorem validateCommand_eq (line : List Byte) :
    validateCommand line =
      (cmd.find? fun entry => BeginsWith (strstrip line) entry).getD [] :=
  validateLoop_eq cmd cmd_nul line

theorem validateCommand_eq_nil_iff (line : List Byte) :
    validateCommand line = [] ↔ ∀ entry ∈ cmd, ¬ BeginsWith (strstrip line) entry := by
  rw [validateCommand_eq]
  cases hfind : cmd.find? fun entry => BeginsWith (strstrip line) entry with
  | none =>
      rw [List.find?_eq_none] at hfind
      simpa using hfind
  | some entry =>
      have hmem := List.mem_of_find?_eq_some hfind
      have hbegins := List.find?_some hfind
      rw [decide_eq_true_eq] at hbegins
      refine iff_of_false (cmd_nonempty entry hmem) fun hnone => ?_
      exact hnone entry hmem hbegins

theorem validateCommand_begins {line entry : List Byte} (h : validateCommand line = entry)
    (hentry : entry ≠ []) : entry ∈ cmd ∧ BeginsWith (strstrip line) entry := by
  rw [validateCommand_eq] at h
  cases hfind : cmd.find? fun entry => BeginsWith (strstrip line) entry with
  | none =>
      rw [hfind] at h
      exact absurd h.symm hentry
  | some found =>
      rw [hfind] at h
      cases h
      have hbegins := List.find?_some hfind
      rw [decide_eq_true_eq] at hbegins
      exact ⟨List.mem_of_find?_eq_some hfind, hbegins⟩

/-- A line which begins with a word has it as its first word. -/
theorem firstWord_eq {line : List Byte} (h : strstrip line ≠ []) :
    firstWord line = strstrip line := by
  cases line with
  | nil => rfl
  | cons c line =>
      cases hc : isspace c with
      | false => simp [firstWord, hc]
      | true => simp [strstrip, hc] at h

theorem BeginsWith.of_eqIgnoringCase {word entry : List Byte} (h : EqIgnoringCase entry word) :
    BeginsWith word entry := by
  rw [BeginsWith, h]

theorem BeginsWith.congr {word other entry : List Byte} (h : EqIgnoringCase other word)
    (hbegins : BeginsWith word entry) : BeginsWith other entry := by
  rwa [BeginsWith, h]

/-- A line is handled as it should be exactly when the word in front of its first blank
is a command or does not begin with one. -/
theorem sendsWholeCommand_iff (line : List Byte) :
    SendsWholeCommand line ↔
      IsCommand (strstrip line) ∨ ∀ entry ∈ cmd, ¬ BeginsWith (strstrip line) entry := by
  constructor
  · rintro ⟨hempty | ⟨hmem, heq⟩, -⟩
    · exact .inr ((validateCommand_eq_nil_iff line).mp hempty)
    · have hnonempty := cmd_nonempty _ hmem
      obtain ⟨-, hbegins⟩ := validateCommand_begins rfl hnonempty
      have hword : strstrip line ≠ [] := by
        intro hnil
        rw [hnil, BeginsWith, List.map_nil, List.prefix_nil, List.map_eq_nil_iff] at hbegins
        exact hnonempty hbegins
      rw [firstWord_eq hword] at heq
      exact .inl ⟨_, hmem, heq⟩
  · rintro (⟨entry, hmem, heq⟩ | hnone)
    · have hbegins := BeginsWith.of_eqIgnoringCase heq
      have hword : strstrip line ≠ [] := by
        intro hnil
        rw [hnil, EqIgnoringCase, List.map_nil, List.map_eq_nil_iff] at heq
        exact cmd_nonempty entry hmem heq
      have hsent : validateCommand line ≠ [] := by
        rw [ne_eq, validateCommand_eq_nil_iff]
        intro hnone
        exact hnone entry hmem hbegins
      obtain ⟨hmem', hbegins'⟩ := validateCommand_begins rfl hsent
      have hsame : entry = validateCommand line :=
        cmd_prefixFree entry hmem _ hmem' (BeginsWith.congr heq hbegins')
      rw [SendsWholeCommand, firstWord_eq hword, ← hsame]
      exact ⟨.inr ⟨hmem, heq⟩, fun hno => absurd ⟨entry, hmem, heq⟩ hno⟩
    · have hempty := (validateCommand_eq_nil_iff line).mpr hnone
      rw [SendsWholeCommand, hempty]
      exact ⟨.inl rfl, fun _ => rfl⟩

/-- The line `upgrade` raises the link. -/
theorem exists_partial_command :
    ∃ line, ¬ SendsWholeCommand line ∧ ¬ IsCommand (firstWord line) ∧
      fifoCommand (validateCommand line) = [bytes "up\n"] := by
  have hsent : fifoCommand (validateCommand (bytes "upgrade")) = [bytes "up\n"] := by decide
  have hnone : ¬ IsCommand (firstWord (bytes "upgrade")) := by decide
  refine ⟨bytes "upgrade", ?_, hnone, hsent⟩
  intro hwhole
  have hempty := hwhole.2 hnone
  rw [hsent] at hempty
  cases hempty

end Monitor

end DialdTop
