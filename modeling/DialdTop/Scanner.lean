import DialdTop.Regex

/-!
# Scanners described by rules

The scanners which flex generates.  At each point the rule with the longest
match wins, the characters of its trailing context included; of several rules
with matches of that length the first one in the description wins.  Where no
rule matches, the default rule consumes one character and returns no token.

`Scans` follows a scanner through a text and composes over concatenation;
`scan` computes the tokens of a whole text.
-/

namespace Scanner

/-- A rule of the description.  The trailing context, if there is one, is a
single character, as in `pattern$` and `pattern/c`. -/
structure Rule (α τ : Type*) where
  pattern : Regex α
  trailing : Option (α → Bool)
  action : List α → Option τ

variable {α τ : Type*}

namespace Rule

/-- The pattern together with its trailing context. -/
def whole (r : Rule α τ) : Regex α :=
  match r.trailing with
  | none => r.pattern
  | some p => .cat r.pattern (.cls p)

def contextLength (r : Rule α τ) : ℕ :=
  match r.trailing with
  | none => 0
  | some _ => 1

end Rule

/-- The winning rule and the length of its match. -/
def winner : List (Rule α τ) → List α → Option (Rule α τ × ℕ)
  | [], _ => none
  | r :: later, s =>
      match r.whole.longest s, winner later s with
      | some n, some (r', m) => if m ≤ n then some (r, n) else some (r', m)
      | some n, none => some (r, n)
      | none, other => other

/-- What one match makes of a text which starts with `c`: the token, if there
is one, and the remaining text. -/
def step (rules : List (Rule α τ)) (c : α) (s : List α) : Option τ × List α :=
  match winner rules (c :: s) with
  | some (r, n) =>
      if n = 0 then (none, s)
      else
        (r.action ((c :: s).take (n - r.contextLength)),
          (c :: s).drop (n - r.contextLength))
  | none => (none, s)

/-- The tokens of a text, for at most `fuel` matches. -/
def scanFuel (rules : List (Rule α τ)) : ℕ → List α → Option (List τ)
  | _, [] => some []
  | 0, _ :: _ => none
  | fuel + 1, c :: s =>
      (scanFuel rules fuel (step rules c s).2).map ((step rules c s).1.toList ++ ·)

/-- A text of `n` characters needs at most `n` matches when each of them
consumes something. -/
def scan (rules : List (Rule α τ)) (s : List α) : Option (List τ) :=
  scanFuel rules s.length s

/-- From the first text the scanner reaches the second one and has returned
the tokens in between. -/
inductive Scans (rules : List (Rule α τ)) : List α → List τ → List α → Prop
  | refl {s : List α} : Scans rules s [] s
  | step {c : α} {s rest : List α} {tokens : List τ} :
      Scans rules (step rules c s).2 tokens rest →
        Scans rules (c :: s) ((Scanner.step rules c s).1.toList ++ tokens) rest

/-- Every match consumes at least one character. -/
def Progressive (rules : List (Rule α τ)) : Prop :=
  ∀ c s, (step rules c s).2.length ≤ s.length

/-! ## The winning rule -/

/-- The winner is one of the rules, with its own longest match. -/
theorem winner_mem
    {rules : List (Rule α τ)} {s : List α} {r : Rule α τ} {n : ℕ}
    (hwinner : winner rules s = some (r, n)) :
    r ∈ rules ∧ r.whole.longest s = some n := by
  induction rules with
  | nil => simp [winner] at hwinner
  | cons first later ih =>
      have hlater : winner later s = some (r, n) →
          r ∈ first :: later ∧ r.whole.longest s = some n := by
        intro h
        exact ⟨List.mem_cons_of_mem _ (ih h).1, (ih h).2⟩
      cases hfirst : first.whole.longest s with
      | none =>
          rw [winner, hfirst] at hwinner
          exact hlater hwinner
      | some k =>
          have hself : some (first, k) = some (r, n) →
              r ∈ first :: later ∧ r.whole.longest s = some n := by
            intro h
            cases h
            exact ⟨List.mem_cons_self, hfirst⟩
          cases hrest : winner later s with
          | none =>
              rw [winner, hfirst, hrest] at hwinner
              exact hself hwinner
          | some other =>
              rw [winner, hfirst, hrest] at hwinner
              simp only at hwinner
              split at hwinner
              · exact hself hwinner
              · exact hlater (hrest.trans hwinner)

theorem winner_eq_none
    {rules : List (Rule α τ)} {s : List α}
    (h : ∀ r ∈ rules, r.whole.longest s = none) :
    winner rules s = none := by
  induction rules with
  | nil => rfl
  | cons first later ih =>
      rw [winner, h first (by simp), ih fun r hr => h r (by simp [hr])]

/-- A rule wins when those before it match less and those behind it not more. -/
theorem winner_of_best
    {before later : List (Rule α τ)} {r : Rule α τ} {s : List α} {n : ℕ}
    (hbefore : ∀ r' ∈ before, ∀ m, r'.whole.longest s = some m → m < n)
    (hmatch : r.whole.longest s = some n)
    (hlater : ∀ r' ∈ later, ∀ m, r'.whole.longest s = some m → m ≤ n) :
    winner (before ++ r :: later) s = some (r, n) := by
  induction before with
  | nil =>
      rw [List.nil_append, winner, hmatch]
      cases hrest : winner later s with
      | none => rfl
      | some result =>
          rcases result with ⟨r', m⟩
          rcases winner_mem hrest with ⟨hr', hm⟩
          simp only [if_pos (hlater r' hr' m hm)]
  | cons first before ih =>
      have hrest := ih fun r' hr' => hbefore r' (List.mem_cons_of_mem first hr')
      rw [List.cons_append, winner, hrest]
      cases hfirst : first.whole.longest s with
      | none => rfl
      | some m =>
          have hless := hbefore first List.mem_cons_self m hfirst
          simp only [if_neg (Nat.not_le.mpr hless)]

/-- A rule wins when all the others fail to match. -/
theorem winner_of_only
    {rules before later : List (Rule α τ)} {r : Rule α τ} {s : List α} {n : ℕ}
    (hrules : rules = before ++ r :: later)
    (hbefore : ∀ r' ∈ before, r'.whole.longest s = none)
    (hmatch : r.whole.longest s = some n)
    (hlater : ∀ r' ∈ later, r'.whole.longest s = none) :
    winner rules s = some (r, n) := by
  subst hrules
  apply winner_of_best
  · intro r' hr' m hm
    rw [hbefore r' hr'] at hm
    cases hm
  · exact hmatch
  · intro r' hr' m hm
    rw [hlater r' hr'] at hm
    cases hm

theorem step_of_winner
    {rules : List (Rule α τ)} {c : α} {s : List α} {r : Rule α τ} {n : ℕ}
    (hwinner : winner rules (c :: s) = some (r, n)) (hn : n ≠ 0) :
    step rules c s =
      (r.action ((c :: s).take (n - r.contextLength)),
        (c :: s).drop (n - r.contextLength)) := by
  simp only [step, hwinner, if_neg hn]

theorem step_of_no_winner
    {rules : List (Rule α τ)} {c : α} {s : List α}
    (hwinner : winner rules (c :: s) = none) :
    step rules c s = (none, s) := by
  simp only [step, hwinner]

/-- The scanner never goes back. -/
theorem step_suffix (rules : List (Rule α τ)) (c : α) (s : List α) :
    (step rules c s).2 <:+ c :: s := by
  unfold step
  split
  next r n _ =>
    split
    · exact List.suffix_cons c s
    · exact List.drop_suffix _ _
  next => exact List.suffix_cons c s

/-- A scanner is progressive when no pattern matches the empty string. -/
theorem progressive_of_not_nullable
    {rules : List (Rule α τ)} (h : ∀ r ∈ rules, r.pattern.nullable = false) :
    Progressive rules := by
  intro c s
  unfold step
  cases hwinner : winner rules (c :: s) with
  | none => exact le_rfl
  | some result =>
      obtain ⟨r, n⟩ := result
      obtain ⟨hr, hlongest⟩ := winner_mem hwinner
      have hnil : [] ∉ r.pattern.lang := by
        intro hmem
        have := (r.pattern.nullable_iff).mpr hmem
        rw [h r hr] at this
        cases this
      have hlong : r.contextLength < n := by
        obtain ⟨w, rest, -, hlength, hw, -⟩ :=
          (Regex.longest_eq_some_iff _ _ _).mp hlongest
        unfold Rule.whole at hw
        unfold Rule.contextLength
        cases htrailing : r.trailing with
        | none =>
            simp only [htrailing] at hw
            have : w ≠ [] := fun hw' => hnil (hw' ▸ hw)
            have := List.length_pos_iff.mpr this
            simp only
            omega
        | some p =>
            simp only [htrailing, Regex.mem_lang_cat] at hw
            obtain ⟨u, hu, v, ⟨d, -, rfl⟩, rfl⟩ := hw
            have : u ≠ [] := fun hu' => hnil (hu' ▸ hu)
            have := List.length_pos_iff.mpr this
            simp only [List.length_append, List.length_singleton] at hlength
            simp only
            omega
      have hne : n ≠ 0 := by omega
      simp only [if_neg hne, List.length_drop, List.length_cons]
      omega

/-! ## Scanning a text -/

theorem Scans.append
    {rules : List (Rule α τ)} {s mid rest : List α} {first later : List τ}
    (hfirst : Scans rules s first mid) (hlater : Scans rules mid later rest) :
    Scans rules s (first ++ later) rest := by
  induction hfirst with
  | refl => exact hlater
  | step _ ih =>
      rw [List.append_assoc]
      exact .step (ih hlater)

theorem Scans.single
    {rules : List (Rule α τ)} {c : α} {s rest : List α} {token : Option τ}
    (hstep : Scanner.step rules c s = (token, rest)) :
    Scans rules (c :: s) token.toList rest := by
  have h : Scans rules (c :: s) ((Scanner.step rules c s).1.toList ++ []) rest :=
    .step (by rw [hstep]; exact .refl)
  simpa [hstep] using h

/-- A progressive scanner computes the tokens of any text it scans, with any
sufficient fuel. -/
theorem scanFuel_of_scans
    {rules : List (Rule α τ)} (hprog : Progressive rules)
    {s : List α} {tokens : List τ} (hscans : Scans rules s tokens [])
    {fuel : ℕ} (hfuel : s.length ≤ fuel) :
    scanFuel rules fuel s = some tokens := by
  generalize hrest : ([] : List α) = rest at hscans
  induction hscans generalizing fuel with
  | refl =>
      subst hrest
      cases fuel <;> rfl
  | @step c s rest tokens _ ih =>
      cases fuel with
      | zero => simp at hfuel
      | succ fuel =>
          have hlen := hprog c s
          have hle : (Scanner.step rules c s).2.length ≤ fuel := by
            simp only [List.length_cons] at hfuel
            omega
          rw [scanFuel, ih hle hrest]
          rfl

theorem scans_of_scanFuel
    {rules : List (Rule α τ)} {s : List α} {tokens : List τ} {fuel : ℕ}
    (hscan : scanFuel rules fuel s = some tokens) :
    Scans rules s tokens [] := by
  induction fuel generalizing s tokens with
  | zero =>
      cases s with
      | nil =>
          cases hscan
          exact .refl
      | cons c s => simp [scanFuel] at hscan
  | succ fuel ih =>
      cases s with
      | nil =>
          cases hscan
          exact .refl
      | cons c s =>
          rw [scanFuel, Option.map_eq_some_iff] at hscan
          obtain ⟨later, hlater, rfl⟩ := hscan
          exact .step (ih hlater)

/-- `scan` and `Scans` agree for progressive scanners. -/
theorem scan_eq_some_iff
    {rules : List (Rule α τ)} (hprog : Progressive rules)
    {s : List α} {tokens : List τ} :
    scan rules s = some tokens ↔ Scans rules s tokens [] :=
  ⟨scans_of_scanFuel, fun h => scanFuel_of_scans hprog h le_rfl⟩

/-- A progressive scanner gets through every text. -/
theorem exists_scans
    {rules : List (Rule α τ)} (hprog : Progressive rules) (s : List α) :
    ∃ tokens, Scans rules s tokens [] := by
  induction hn : s.length using Nat.strong_induction_on generalizing s with
  | _ n ih =>
      cases s with
      | nil => exact ⟨[], .refl⟩
      | cons c s =>
          have hlt : (step rules c s).2.length < n := by
            have := hprog c s
            rw [← hn, List.length_cons]
            omega
          obtain ⟨tokens, htokens⟩ := ih _ hlt (step rules c s).2 rfl
          exact ⟨_, .step htokens⟩

end Scanner
