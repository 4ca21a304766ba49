import DialdTop.ConfScanner

/-!
# Lines of the configuration file

What is written on a line, as its reader sees it, and what the scanner makes
of the line.  A field is a maximal run of characters other than separators in
front of the comment; the scanner knows nothing of fields and works its way
through the line by `LineScan`.
-/

namespace DialdTop

open Scanner

/-! ## Fields -/

/-- The part of a line in front of its comment. -/
def written (line : List Byte) : List Byte :=
  line.takeWhile (· ≠ hash)

/-- The fields of a line. -/
def fields (line : List Byte) : List (List Byte) :=
  ((written line).splitOnP isSeparator).filter (· ≠ [])

def isFieldChar (c : Byte) : Bool :=
  c ≠ hash && !isSeparator c

/-- A text after which a field cannot go on. -/
def EndsField (rest : List Byte) : Prop :=
  ∀ c ∈ rest.head?, isFieldChar c = false

def hasLetter (line : List Byte) : Bool :=
  (written line).any isLetter

@[simp] theorem written_nil : written [] = [] := rfl

@[simp] theorem written_hash (s : List Byte) : written (hash :: s) = [] := by
  simp [written]

theorem written_cons {c : Byte} (hc : c ≠ hash) (s : List Byte) :
    written (c :: s) = c :: written s := by
  simp [written, hc]

theorem written_append {w : List Byte} (hw : hash ∉ w) (rest : List Byte) :
    written (w ++ rest) = w ++ written rest := by
  apply List.takeWhile_append_of_pos
  intro c hc
  have hne : c ≠ hash := by
    intro heq
    exact hw (heq ▸ hc)
  simp [hne]

@[simp] theorem fields_nil : fields [] = [] := by
  simp [fields]

@[simp] theorem fields_hash (s : List Byte) : fields (hash :: s) = [] := by
  simp [fields]

theorem separator_ne_hash {c : Byte} (hc : isSeparator c = true) : c ≠ hash := by
  intro heq
  subst c
  exact absurd hc (by decide)

theorem fields_separator {c : Byte} (hc : isSeparator c = true) (s : List Byte) :
    fields (c :: s) = fields s := by
  simp [fields, written_cons (separator_ne_hash hc),
    List.splitOnP_cons_eq_if_modifyHead, hc]

theorem fields_append
    {w rest : List Byte} (hne : w ≠ []) (hw : ∀ c ∈ w, isFieldChar c = true)
    (hrest : EndsField rest) :
    fields (w ++ rest) = w :: fields rest := by
  have hhash : hash ∉ w := by
    intro hmem
    exact absurd (hw hash hmem) (by decide)
  have hsep : ∀ c ∈ w, isSeparator c = false := by
    intro c hc
    have := hw c hc
    simp only [isFieldChar, Bool.and_eq_true, Bool.not_eq_true'] at this
    exact this.2
  have hsingle : w.splitOnP isSeparator = [w] := List.splitOnP_eq_singleton hsep
  cases rest with
  | nil =>
      have hwritten : written w = w := by
        have h := written_append hhash []
        rwa [List.append_nil, written_nil, List.append_nil] at h
      simp [fields, hwritten, hsingle, hne]
  | cons d rest =>
      have hd : isFieldChar d = false := hrest d rfl
      by_cases hcomment : d = hash
      · subst d
        simp [fields, written_append hhash, hsingle, hne]
      · have hdsep : isSeparator d = true := by
          simpa [isFieldChar, hcomment] using hd
        have hsplit := List.splitOnP_append_cons_of_forall_mem hsep d hdsep
          (written rest)
        rw [fields_separator hdsep]
        simp [fields, written_append hhash, written_cons hcomment, hsplit, hne]

theorem fields_start
    {c : Byte} (hc : isFieldChar c = true) (s : List Byte) :
    ∃ w rest, c :: s = w ++ rest ∧ w ≠ [] ∧ EndsField rest ∧
      fields (c :: s) = w :: fields rest := by
  have hne : (c :: s).takeWhile isFieldChar ≠ [] := by
    simp [hc]
  have hrest : EndsField ((c :: s).dropWhile isFieldChar) := by
    intro d hd
    have := List.head?_dropWhile_not isFieldChar (c :: s)
    rw [hd] at this
    simpa using this
  have hsplit : (c :: s).takeWhile isFieldChar ++ (c :: s).dropWhile isFieldChar =
      c :: s := List.takeWhile_append_dropWhile
  have hfields := fields_append hne (fun d hd => List.mem_takeWhile_imp hd) hrest
  rw [hsplit] at hfields
  exact ⟨_, _, hsplit.symm, hne, hrest, hfields⟩

/-! ## Character classes -/

theorem letter_classes {c : Byte} (hc : isLetter c = true) :
    isDigit c = false ∧ isSeparator c = false ∧ c ≠ hash ∧ c ≠ newline := by
  simp only [isLetter, isDigit, isSeparator, hash, newline, blank, tab] at *
  grind

theorem digit_classes {c : Byte} (hc : isDigit c = true) :
    isLetter c = false ∧ isSeparator c = false ∧ c ≠ hash ∧ c ≠ newline := by
  simp only [isLetter, isDigit, isSeparator, hash, newline, blank, tab] at *
  grind

theorem separator_classes {c : Byte} (hc : isSeparator c = true) :
    isLetter c = false ∧ isDigit c = false ∧ c ≠ hash ∧ c ≠ newline := by
  simp only [isLetter, isDigit, isSeparator, hash, newline, blank, tab] at *
  grind

/-! ## One step of the scanner -/

namespace ConfScanner

theorem userid_longest_eq_none
    {c : Byte} (hc : isLetter c = false) (s : List Byte) :
    useridRule.whole.longest (c :: s) = none :=
  ((Regex.begins_cls _).cat _).longest_eq_none hc s

theorem ip_longest_eq_none
    {c : Byte} (hc : isDigit c = false) (s : List Byte) :
    ipRule.whole.longest (c :: s) = none :=
  (((Regex.begins_cls _).cat _).cat _).longest_eq_none hc s

theorem comment_longest_eq_none
    {c : Byte} (hc : c ≠ hash) (s : List Byte) :
    commentRule.whole.longest (c :: s) = none :=
  (((Regex.begins_cls _).cat _).cat _).longest_eq_none (by simpa using hc) s

theorem ws_longest_eq_none
    {c : Byte} (hc : isSeparator c = false) (s : List Byte) :
    wsRule.whole.longest (c :: s) = none :=
  (Regex.begins_cls _).longest_eq_none hc s

theorem newline_longest_eq_none
    {c : Byte} (hc : c ≠ newline) (s : List Byte) :
    newlineRule.whole.longest (c :: s) = none :=
  (Regex.begins_cls _).longest_eq_none (by simpa using hc) s

theorem step_userid {c : Byte} (hc : isLetter c = true) (s : List Byte) :
    step rules c s =
      (some (.userid (c :: s.takeWhile isUseridChar)), s.dropWhile isUseridChar) := by
  obtain ⟨hdigit, hsep, hhash, hnewline⟩ := letter_classes hc
  have hrules : rules =
      [] ++ useridRule :: [ipRule, commentRule, wsRule, newlineRule] := rfl
  have hwinner : winner rules (c :: s) =
      some (useridRule, (s.takeWhile isUseridChar).length + 1) := by
    apply winner_of_only hrules
    · simp
    · exact Regex.longest_cls_star hc s
    · intro r hr
      simp only [List.mem_cons, List.not_mem_nil, or_false] at hr
      rcases hr with rfl | rfl | rfl | rfl
      · exact ip_longest_eq_none hdigit s
      · exact comment_longest_eq_none hhash s
      · exact ws_longest_eq_none hsep s
      · exact newline_longest_eq_none hnewline s
  have htake : s.take (s.takeWhile isUseridChar).length = s.takeWhile isUseridChar :=
    (List.prefix_iff_eq_take.mp (List.takeWhile_prefix _)).symm
  have hdrop : s.drop (s.takeWhile isUseridChar).length = s.dropWhile isUseridChar := by
    conv_lhs =>
      arg 2
      rw [← List.takeWhile_append_dropWhile (p := isUseridChar) (l := s)]
    exact List.drop_left
  rw [step_of_winner hwinner (by omega)]
  simp [useridRule, Rule.contextLength, htake, hdrop]

theorem winner_of_digit {c : Byte} (hc : isDigit c = true) (s : List Byte) :
    winner rules (c :: s) = (ip.longest (c :: s)).map fun n => (ipRule, n) := by
  obtain ⟨hletter, hsep, hhash, hnewline⟩ := digit_classes hc
  have hlater : winner [commentRule, wsRule, newlineRule] (c :: s) = none := by
    apply winner_eq_none
    intro r hr
    simp only [List.mem_cons, List.not_mem_nil, or_false] at hr
    rcases hr with rfl | rfl | rfl
    · exact comment_longest_eq_none hhash s
    · exact ws_longest_eq_none hsep s
    · exact newline_longest_eq_none hnewline s
  have hwhole : ipRule.whole = ip := rfl
  rw [rules, winner, userid_longest_eq_none hletter s, winner, hlater, hwhole]
  cases ip.longest (c :: s) <;> rfl

theorem ip_longest_pos {s : List Byte} {n : ℕ} (h : ip.longest s = some n) :
    n ≠ 0 := by
  obtain ⟨w, rest, -, rfl, hw, -⟩ := (Regex.longest_eq_some_iff _ _ _).mp h
  obtain ⟨c, v, rfl, -⟩ := (((Regex.begins_cls _).cat _).cat _) w hw
  simp

theorem step_ip
    {c : Byte} {s : List Byte} {n : ℕ} (hc : isDigit c = true)
    (hn : ip.longest (c :: s) = some n) :
    step rules c s = (some (.ip ((c :: s).take n)), (c :: s).drop n) := by
  have hwinner := winner_of_digit hc s
  rw [hn] at hwinner
  rw [step_of_winner hwinner (ip_longest_pos hn)]
  rfl

theorem mem_comment_whole_iff (w : List Byte) :
    w ∈ commentRule.whole.lang ↔
      ∃ line, newline ∉ line ∧ w = hash :: line ++ [newline] := by
  have hstar : ∀ line : List Byte,
      line ∈ (Regex.star (.cls fun c => decide (c ≠ newline))).lang ↔ newline ∉ line := by
    intro line
    rw [Regex.mem_lang_star_cls]
    simp only [decide_eq_true_eq]
    exact ⟨fun h hmem => h newline hmem rfl, fun h c hc heq => h (heq ▸ hc)⟩
  change w ∈ (Regex.cat comment (.cls fun c => decide (c = newline))).lang ↔ _
  rw [Regex.mem_lang_cat]
  constructor
  · rintro ⟨u, hu, v, ⟨d, hd, rfl⟩, rfl⟩
    rw [comment, Regex.mem_lang_cls_cat] at hu
    obtain ⟨c, line, rfl, hc, hline⟩ := hu
    obtain rfl : c = hash := by simpa using hc
    obtain rfl : d = newline := by simpa using hd
    exact ⟨line, (hstar line).mp hline, rfl⟩
  · rintro ⟨line, hline, rfl⟩
    refine ⟨hash :: line, ?_, [newline], ⟨newline, by simp, rfl⟩, rfl⟩
    rw [comment, Regex.mem_lang_cls_cat]
    exact ⟨hash, line, rfl, by simp, (hstar line).mpr hline⟩

/-- A comment ends with its line. -/
theorem comment_longest
    {line : List Byte} (hline : newline ∉ line) (rest : List Byte) :
    commentRule.whole.longest (hash :: (line ++ newline :: rest)) =
      some (line.length + 2) := by
  have hends : ∀ w ∈ commentRule.whole.lang, ∃ u, newline ∉ u ∧ w = u ++ [newline] := by
    intro w hw
    obtain ⟨body, hbody, rfl⟩ := (mem_comment_whole_iff w).mp hw
    refine ⟨hash :: body, ?_, rfl⟩
    intro hmem
    rcases List.mem_cons.mp hmem with h | h
    · exact absurd h (by decide)
    · exact hbody h
  exact Regex.longest_of_terminated hends
    ((mem_comment_whole_iff _).mpr ⟨line, hline, rfl⟩) rest

theorem step_comment
    {line : List Byte} (hline : newline ∉ line) (rest : List Byte) :
    step rules hash (line ++ newline :: rest) = (none, newline :: rest) := by
  have hrules : rules =
      [useridRule, ipRule] ++ commentRule :: [wsRule, newlineRule] := rfl
  have hwinner : winner rules (hash :: (line ++ newline :: rest)) =
      some (commentRule, line.length + 2) := by
    apply winner_of_only hrules
    · intro r hr
      simp only [List.mem_cons, List.not_mem_nil, or_false] at hr
      rcases hr with rfl | rfl
      · exact userid_longest_eq_none (by decide) _
      · exact ip_longest_eq_none (by decide) _
    · exact comment_longest hline rest
    · intro r hr
      simp only [List.mem_cons, List.not_mem_nil, or_false] at hr
      rcases hr with rfl | rfl
      · exact ws_longest_eq_none (by decide) _
      · exact newline_longest_eq_none (by decide) _
  rw [step_of_winner hwinner (by simp)]
  simp [commentRule, Rule.contextLength]

theorem step_newline (s : List Byte) :
    step rules newline s = (some .newline, s) := by
  have hrules : rules =
      [useridRule, ipRule, commentRule, wsRule] ++ newlineRule :: [] := rfl
  have hwinner : winner rules (newline :: s) = some (newlineRule, 1) := by
    apply winner_of_only hrules
    · intro r hr
      simp only [List.mem_cons, List.not_mem_nil, or_false] at hr
      rcases hr with rfl | rfl | rfl | rfl
      · exact userid_longest_eq_none (by decide) s
      · exact ip_longest_eq_none (by decide) s
      · exact comment_longest_eq_none (by decide) s
      · exact ws_longest_eq_none (by decide) s
    · exact Regex.longest_cls (by simp) s
    · simp
  rw [step_of_winner hwinner (by simp)]
  rfl

/-- Separators, and the characters which no rule matches. -/
theorem step_skip
    {c : Byte} {s : List Byte} (hletter : isLetter c = false)
    (hip : isDigit c = true → ip.longest (c :: s) = none) (hhash : c ≠ hash)
    (hnewline : c ≠ newline) :
    step rules c s = (none, s) := by
  by_cases hsep : isSeparator c = true
  · obtain ⟨-, hdigit, -, -⟩ := separator_classes hsep
    have hrules : rules =
        [useridRule, ipRule, commentRule] ++ wsRule :: [newlineRule] := rfl
    have hwinner : winner rules (c :: s) = some (wsRule, 1) := by
      apply winner_of_only hrules
      · intro r hr
        simp only [List.mem_cons, List.not_mem_nil, or_false] at hr
        rcases hr with rfl | rfl | rfl
        · exact userid_longest_eq_none hletter s
        · exact ip_longest_eq_none hdigit s
        · exact comment_longest_eq_none hhash s
      · exact Regex.longest_cls hsep s
      · intro r hr
        rw [List.mem_singleton] at hr
        subst r
        exact newline_longest_eq_none hnewline s
    rw [step_of_winner hwinner (by simp)]
    rfl
  · have hnone : ∀ r ∈ rules, r.whole.longest (c :: s) = none := by
      intro r hr
      simp only [rules, List.mem_cons, List.not_mem_nil, or_false] at hr
      rcases hr with rfl | rfl | rfl | rfl | rfl
      · exact userid_longest_eq_none hletter s
      · by_cases hdigit : isDigit c = true
        · exact hip hdigit
        · exact ip_longest_eq_none (by simpa using hdigit) s
      · exact comment_longest_eq_none hhash s
      · exact ws_longest_eq_none (by simpa using hsep) s
      · exact newline_longest_eq_none hnewline s
    exact step_of_no_winner (winner_eq_none hnone)

theorem eq_newline_of_step {c : Byte} {s : List Byte}
    (h : (step rules c s).1 = some .newline) : c = newline := by
  by_contra hc
  cases hwinner : winner rules (c :: s) with
  | none =>
      rw [step_of_no_winner hwinner] at h
      cases h
  | some result =>
      obtain ⟨r, n⟩ := result
      obtain ⟨hr, hlongest⟩ := winner_mem hwinner
      have hne : r ≠ newlineRule := by
        intro heq
        rw [heq, newline_longest_eq_none hc] at hlongest
        cases hlongest
      unfold step at h
      rw [hwinner] at h
      simp only at h
      split at h
      · cases h
      · simp only [rules, List.mem_cons, List.not_mem_nil, or_false] at hr
        rcases hr with rfl | rfl | rfl | rfl | rfl
        · cases h
        · cases h
        · cases h
        · cases h
        · exact hne rfl

end ConfScanner

open ConfScanner

/-! ## Scanning a line -/

/-- The tokens which the scanner makes of a line that ends with a newline. -/
inductive LineScan : List Byte → List ConfToken → Prop
  | nil : LineScan [] []
  | userid {c : Byte} {s : List Byte} {ts : List ConfToken} :
      isLetter c = true → LineScan (s.dropWhile isUseridChar) ts →
        LineScan (c :: s) (.userid (c :: s.takeWhile isUseridChar) :: ts)
  | ip {c : Byte} {s : List Byte} {n : ℕ} {ts : List ConfToken} :
      isDigit c = true → ip.longest (c :: s) = some n →
        LineScan ((c :: s).drop n) ts →
          LineScan (c :: s) (.ip ((c :: s).take n) :: ts)
  | comment {s : List Byte} : LineScan (hash :: s) []
  | skip {c : Byte} {s : List Byte} {ts : List ConfToken} :
      isLetter c = false → (isDigit c = true → ip.longest (c :: s) = none) →
        c ≠ hash → LineScan s ts → LineScan (c :: s) ts

theorem exists_lineScan (line : List Byte) : ∃ ts, LineScan line ts := by
  induction hn : line.length using Nat.strong_induction_on generalizing line with
  | _ n ih =>
      cases line with
      | nil => exact ⟨[], .nil⟩
      | cons c s =>
          rw [List.length_cons] at hn
          by_cases hletter : isLetter c = true
          · have hlt : (s.dropWhile isUseridChar).length < n := by
              have := List.length_dropWhile_le isUseridChar s
              omega
            obtain ⟨ts, hts⟩ := ih _ hlt _ rfl
            exact ⟨_, .userid hletter hts⟩
          by_cases hhash : c = hash
          · subst c
            exact ⟨[], .comment⟩
          by_cases hip : isDigit c = true ∧ (ip.longest (c :: s)).isSome
          · obtain ⟨hdigit, hsome⟩ := hip
            obtain ⟨k, hk⟩ := Option.isSome_iff_exists.mp hsome
            have hlt : ((c :: s).drop k).length < n := by
              have := ip_longest_pos hk
              rw [List.length_drop, List.length_cons]
              omega
            obtain ⟨ts, hts⟩ := ih _ hlt _ rfl
            exact ⟨_, .ip hdigit hk hts⟩
          · have hskip : isDigit c = true → ip.longest (c :: s) = none := by
              intro hdigit
              by_contra hne
              exact hip ⟨hdigit, Option.isSome_iff_ne_none.mpr hne⟩
            obtain ⟨ts, hts⟩ := ih s.length (by omega) s rfl
            exact ⟨ts, .skip (by simpa using hletter) hskip hhash hts⟩

theorem ip_within : ip.Within fun c => isDigit c || c = dot := by
  have hdigit : (Regex.cls isDigit).Within fun c => isDigit c || c = dot :=
    Regex.within_cls fun c hc => by simp [hc]
  have hpoint : point.Within fun c => isDigit c || c = dot :=
    Regex.within_cls (by simp)
  have hoctet : octet.Within fun c => isDigit c || c = dot :=
    hdigit.cat (hdigit.opt.cat hdigit.opt)
  exact hoctet.cat (hpoint.cat (hoctet.cat (hpoint.cat (hoctet.cat
    (hpoint.cat hoctet)))))

theorem userid_stops_at_newline (s rest : List Byte) :
    (s ++ newline :: rest).takeWhile isUseridChar = s.takeWhile isUseridChar ∧
      (s ++ newline :: rest).dropWhile isUseridChar =
        s.dropWhile isUseridChar ++ newline :: rest := by
  have hnewline : isUseridChar newline = false := by decide
  induction s with
  | nil => simp [hnewline]
  | cons c s ih =>
      by_cases hc : isUseridChar c = true
      · simp [hc, ih]
      · simp [hc]

/-- The scanner works through a line and stops in front of its newline. -/
theorem LineScan.scans
    {line : List Byte} {ts : List ConfToken} (h : LineScan line ts)
    (hline : newline ∉ line) (rest : List Byte) :
    Scans rules (line ++ newline :: rest) ts (newline :: rest) := by
  induction h with
  | nil => exact .refl
  | @userid c s ts hc _ ih =>
      have hs : newline ∉ s.dropWhile isUseridChar := by
        intro hmem
        exact hline (List.mem_cons_of_mem _ ((List.dropWhile_suffix _).subset hmem))
      have hstep := step_userid hc (s ++ newline :: rest)
      rw [(userid_stops_at_newline s rest).1, (userid_stops_at_newline s rest).2]
        at hstep
      exact (Scans.single hstep).append (ih hs)
  | @ip c s n ts hc hn _ ih =>
      have hs : newline ∉ (c :: s).drop n := by
        intro hmem
        exact hline (List.mem_of_mem_drop hmem)
      have hlength : n ≤ (c :: s).length := by
        obtain ⟨w, rest, heq, rfl, -, -⟩ := (Regex.longest_eq_some_iff _ _ _).mp hn
        rw [heq, List.length_append]
        omega
      have hlongest : ConfScanner.ip.longest (c :: (s ++ newline :: rest)) = some n := by
        rw [← List.cons_append, ip_within.longest_append_cons (by decide)]
        exact hn
      have hstep := step_ip hc hlongest
      rw [← List.cons_append, List.take_append_of_le_length hlength,
        List.drop_append_of_le_length hlength] at hstep
      exact (Scans.single hstep).append (ih hs)
  | @comment s =>
      have hs : newline ∉ s := fun hmem => hline (List.mem_cons_of_mem _ hmem)
      exact Scans.single (step_comment hs rest)
  | @skip c s ts hletter hip hhash _ ih =>
      have hs : newline ∉ s := fun hmem => hline (List.mem_cons_of_mem _ hmem)
      have hc : c ≠ newline := fun heq => hline (heq ▸ List.mem_cons_self)
      have hlongest : isDigit c = true →
          ConfScanner.ip.longest (c :: (s ++ newline :: rest)) = none := by
        intro hdigit
        rw [← List.cons_append, ip_within.longest_append_cons (by decide)]
        exact hip hdigit
      exact (Scans.single (step_skip hletter hlongest hhash hc)).append (ih hs)

theorem LineScan.newline_notMem
    {line : List Byte} {ts : List ConfToken} (h : LineScan line ts) :
    ConfToken.newline ∉ ts := by
  induction h with
  | nil => simp
  | userid _ _ ih => simpa using ih
  | ip _ _ _ ih => simpa using ih
  | comment => simp
  | skip _ _ _ _ ih => exact ih

/-- Without a newline in the text there is none among the tokens. -/
theorem newline_notMem_of_scans
    {s rest : List Byte} {ts : List ConfToken} (h : Scans rules s ts rest)
    (hs : newline ∉ s) : ConfToken.newline ∉ ts := by
  induction h with
  | refl => simp
  | @step c s rest ts _ ih =>
      have hnext : newline ∉ (step rules c s).2 := by
        intro hmem
        exact hs ((step_suffix rules c s).subset hmem)
      have hfirst : ConfToken.newline ∉ (step rules c s).1.toList := by
        intro hmem
        rw [Option.mem_toList] at hmem
        exact hs (eq_newline_of_step hmem ▸ List.mem_cons_self)
      rw [List.mem_append]
      exact fun h => h.elim hfirst (ih hnext)

/-! ## Tokens and fields -/

def IsUserid (text : List Byte) : Prop := text ∈ userid.lang

theorem isUserid_iff (text : List Byte) :
    IsUserid text ↔
      ∃ c v, text = c :: v ∧ isLetter c = true ∧ ∀ d ∈ v, isUseridChar d = true := by
  unfold IsUserid userid
  rw [Regex.mem_lang_cls_cat]
  simp only [Regex.mem_lang_star_cls]

theorem IsUserid.nul_notMem {text : List Byte} (h : IsUserid text) : nul ∉ text := by
  obtain ⟨c, v, rfl, hc, hv⟩ := (isUserid_iff text).mp h
  intro hmem
  have hchar : isUseridChar nul = true := by
    rcases List.mem_cons.mp hmem with heq | hmem
    · rw [heq, isUseridChar, hc, Bool.true_or]
    · exact hv nul hmem
  exact absurd hchar (by decide)

theorem LineScan.isUserid
    {line : List Byte} {ts : List ConfToken} (h : LineScan line ts)
    {text : List Byte} (htext : .userid text ∈ ts) : IsUserid text := by
  induction h with
  | nil => cases htext
  | @userid c s ts hc _ ih =>
      rcases List.mem_cons.mp htext with heq | htext
      · cases heq
        exact (isUserid_iff _).mpr
          ⟨c, _, rfl, hc, fun d hd => List.mem_takeWhile_imp hd⟩
      · exact ih htext
  | ip _ _ _ ih =>
      rcases List.mem_cons.mp htext with heq | htext
      · cases heq
      · exact ih htext
  | comment => cases htext
  | skip _ _ _ _ ih => exact ih htext

/-- A letter in front of the comment is a letter of a userid. -/
theorem LineScan.hasLetter_iff
    {line : List Byte} {ts : List ConfToken} (h : LineScan line ts) :
    hasLetter line = true ↔ ∃ text, .userid text ∈ ts := by
  induction h with
  | nil => simp [hasLetter]
  | @userid c s ts hc _ ih =>
      obtain ⟨-, -, hhash, -⟩ := letter_classes hc
      constructor
      · intro _
        exact ⟨_, List.mem_cons_self⟩
      · intro _
        simp [hasLetter, written_cons hhash, hc]
  | @ip c s n ts hc hn _ ih =>
      obtain ⟨w, rest, heq, rfl, hw, -⟩ := (Regex.longest_eq_some_iff _ _ _).mp hn
      have hchars : ∀ d ∈ w, isLetter d = false ∧ d ≠ hash := by
        intro d hd
        have hclass := ip_within w hw d hd
        simp only [Bool.or_eq_true, decide_eq_true_eq] at hclass
        rcases hclass with hdigit | rfl
        · exact ⟨(digit_classes hdigit).1, (digit_classes hdigit).2.2.1⟩
        · decide
      have hhash : hash ∉ w := fun hmem => (hchars hash hmem).2 rfl
      have hw : w.any isLetter = false := by
        rw [List.any_eq_false]
        intro d hd
        simp [(hchars d hd).1]
      rw [heq, List.drop_left] at ih
      rw [heq]
      unfold hasLetter at ih ⊢
      rw [written_append hhash, List.any_append, hw, Bool.false_or, ih]
      simp
  | comment => simp [hasLetter]
  | @skip c s ts hletter _ hhash _ ih =>
      rw [← ih]
      simp [hasLetter, written_cons hhash, hletter]

theorem isFieldChar_of {c : Byte} (hsep : isSeparator c = false) (hhash : c ≠ hash) :
    isFieldChar c = true := by
  simp [isFieldChar, hsep, hhash]

theorem isFieldChar_of_letter {c : Byte} (hc : isLetter c = true) :
    isFieldChar c = true :=
  isFieldChar_of (letter_classes hc).2.1 (letter_classes hc).2.2.1

theorem isFieldChar_of_digit {c : Byte} (hc : isDigit c = true) :
    isFieldChar c = true :=
  isFieldChar_of (digit_classes hc).2.1 (digit_classes hc).2.2.1

theorem fields_ne_nil {c : Byte} (hc : isFieldChar c = true) (s : List Byte) :
    fields (c :: s) ≠ [] := by
  obtain ⟨w, rest, -, -, -, heq⟩ := fields_start hc s
  rw [heq]
  exact List.cons_ne_nil w _

/-- A line without fields leaves no tokens. -/
theorem LineScan.eq_nil_of_fields
    {line : List Byte} {ts : List ConfToken} (h : LineScan line ts)
    (hfields : fields line = []) : ts = [] := by
  induction h with
  | nil => rfl
  | @userid c s ts hc _ _ =>
      exact absurd hfields (fields_ne_nil (isFieldChar_of_letter hc) s)
  | @ip c s n ts hc _ _ _ =>
      exact absurd hfields (fields_ne_nil (isFieldChar_of_digit hc) s)
  | comment => rfl
  | @skip c s ts _ _ hhash _ ih =>
      by_cases hsep : isSeparator c = true
      · rw [fields_separator hsep] at hfields
        exact ih hfields
      · have hc := isFieldChar_of (by simpa using hsep) hhash
        exact absurd hfields (fields_ne_nil hc s)

/-- Behind the separators the scanner meets the first field. -/
theorem LineScan.first_field
    {line : List Byte} {ts : List ConfToken} (h : LineScan line ts)
    {w : List Byte} {later : List (List Byte)} (hfields : fields line = w :: later) :
    ∃ rest, LineScan (w ++ rest) ts ∧ EndsField rest ∧ fields rest = later := by
  have hstart : ∀ {c s}, isFieldChar c = true → LineScan (c :: s) ts →
      fields (c :: s) = w :: later →
        ∃ rest, LineScan (w ++ rest) ts ∧ EndsField rest ∧ fields rest = later := by
    intro c s hc hscan hfields
    obtain ⟨w', rest, heq, -, hrest, hfirst⟩ := fields_start hc s
    rw [hfirst, List.cons.injEq] at hfields
    obtain ⟨rfl, hlater⟩ := hfields
    exact ⟨rest, heq ▸ hscan, hrest, hlater⟩
  induction h with
  | nil => simp at hfields
  | userid hc hs _ =>
      exact hstart (isFieldChar_of_letter hc) (.userid hc hs) hfields
  | ip hc hn hs _ =>
      exact hstart (isFieldChar_of_digit hc) (.ip hc hn hs) hfields
  | comment => simp at hfields
  | @skip c s ts hletter hip hhash hs ih =>
      by_cases hsep : isSeparator c = true
      · rw [fields_separator hsep] at hfields
        exact ih hfields hstart
      · have hc := isFieldChar_of (by simpa using hsep) hhash
        exact hstart hc (.skip hletter hip hhash hs) hfields

theorem EndsField.takeWhile_append
    {rest : List Byte} (h : EndsField rest) {p : Byte → Bool}
    (hp : ∀ c, p c = true → isFieldChar c = true) {w : List Byte}
    (hw : ∀ c ∈ w, p c = true) :
    (w ++ rest).takeWhile p = w ∧ (w ++ rest).dropWhile p = rest := by
  have hstop : rest.takeWhile p = [] ∧ rest.dropWhile p = rest := by
    cases rest with
    | nil => exact ⟨rfl, rfl⟩
    | cons d rest =>
        have hd : p d ≠ true := by
          intro hpd
          have := h d rfl
          rw [hp d hpd] at this
          cases this
        simp [hd]
  rw [List.takeWhile_append_of_pos hw, List.dropWhile_append_of_pos hw, hstop.1,
    hstop.2, List.append_nil]
  exact ⟨rfl, rfl⟩

theorem isFieldChar_of_useridChar {c : Byte} (hc : isUseridChar c = true) :
    isFieldChar c = true := by
  rw [isUseridChar, Bool.or_eq_true] at hc
  rcases hc with hc | hc
  · exact isFieldChar_of_letter hc
  · exact isFieldChar_of_digit hc

theorem LineScan.userid_field
    {line : List Byte} {ts : List ConfToken} (h : LineScan line ts)
    {user : List Byte} (huser : IsUserid user) {later : List (List Byte)}
    (hfields : fields line = user :: later) :
    ∃ rest ts', ts = .userid user :: ts' ∧ LineScan rest ts' ∧
      fields rest = later := by
  obtain ⟨rest, hscan, hrest, hlater⟩ := h.first_field hfields
  obtain ⟨c, v, rfl, hc, hv⟩ := (isUserid_iff user).mp huser
  obtain ⟨hdigit, -, hhash, -⟩ := letter_classes hc
  have hsplit := hrest.takeWhile_append (fun c => isFieldChar_of_useridChar) hv
  rw [List.cons_append] at hscan
  cases hscan with
  | userid _ hs =>
      rw [hsplit.1]
      rw [hsplit.2] at hs
      exact ⟨rest, _, rfl, hs, hlater⟩
  | ip hc' _ _ =>
      rw [hdigit] at hc'
      cases hc'
  | comment => exact absurd rfl hhash
  | skip hletter _ _ _ =>
      rw [hc] at hletter
      cases hletter

theorem mem_octet
    {text : List Byte} (hne : text ≠ []) (hlength : text.length ≤ 3)
    (htext : ∀ c ∈ text, isDigit c = true) : text ∈ octet.lang := by
  have hopt : ∀ v : List Byte, v.length ≤ 1 → (∀ c ∈ v, isDigit c = true) →
      v ∈ (Regex.cls isDigit).opt.lang := by
    intro v hv hdigits
    match v with
    | [] => exact (Regex.mem_lang_opt _ _).mpr (.inr rfl)
    | [c] => exact (Regex.mem_lang_opt _ _).mpr (.inl ⟨c, hdigits c (by simp), rfl⟩)
  match text with
  | c :: v =>
      simp only [List.length_cons] at hlength
      refine (Regex.mem_lang_cls_cat _ _ _).mpr ⟨c, v, rfl, htext c (by simp), ?_⟩
      refine (Regex.mem_lang_cat _ _ _).mpr
        ⟨v.take 1, ?_, v.drop 1, ?_, List.take_append_drop 1 v⟩
      · apply hopt
        · simp
        · intro d hd
          exact htext d (List.mem_cons_of_mem c (List.mem_of_mem_take hd))
      · apply hopt
        · rw [List.length_drop]
          omega
        · intro d hd
          exact htext d (List.mem_cons_of_mem c (List.mem_of_mem_drop hd))

theorem decimal_mem_octet (v : BitVec 8) : decimal v.toNat ∈ octet.lang := by
  exact mem_octet (decimal_ne_nil _) (decimal_octet_length v) fun _ hb => isDigit_of_mem_decimal hb

theorem inetNtoa_mem_ip (addr : BitVec 32) : inetNtoa addr ∈ ip.lang := by
  have hpoint : bytes "." ∈ point.lang := by
    exact (Regex.mem_lang_cls _ _).mpr ⟨dot, by simp, by decide⟩
  have hcat : ∀ {r t : Regex Byte} {u v : List Byte}, u ∈ r.lang → v ∈ t.lang →
      u ++ v ∈ (Regex.cat r t).lang := fun hu hv =>
    (Regex.mem_lang_cat _ _ _).mpr ⟨_, hu, _, hv, rfl⟩
  simp only [inetNtoa, List.append_assoc]
  exact hcat (decimal_mem_octet _) (hcat hpoint (hcat (decimal_mem_octet _)
    (hcat hpoint (hcat (decimal_mem_octet _) (hcat hpoint (decimal_mem_octet _))))))

/-- A match of `ip` never goes beyond the field. -/
theorem EndsField.ip_longest
    {rest : List Byte} (h : EndsField rest) (addr : BitVec 32) :
    ip.longest (inetNtoa addr ++ rest) = some (inetNtoa addr).length := by
  cases rest with
  | nil =>
      rw [List.append_nil]
      exact Regex.longest_self (inetNtoa_mem_ip addr)
  | cons d rest =>
      have hd : (isDigit d || d = dot) = false := by
        have hfield := h d rfl
        by_contra hne
        simp only [Bool.not_eq_false, Bool.or_eq_true, decide_eq_true_eq] at hne
        rcases hne with hdigit | rfl
        · rw [isFieldChar_of_digit hdigit] at hfield
          cases hfield
        · exact absurd hfield (by decide)
      exact ip_within.longest_of_mem hd (inetNtoa_mem_ip addr) rest

theorem LineScan.ip_field
    {line : List Byte} {ts : List ConfToken} (h : LineScan line ts)
    {addr : BitVec 32} {later : List (List Byte)}
    (hfields : fields line = inetNtoa addr :: later) :
    ∃ rest ts', ts = .ip (inetNtoa addr) :: ts' ∧ LineScan rest ts' ∧
      fields rest = later := by
  obtain ⟨rest, hscan, hrest, hlater⟩ := h.first_field hfields
  have hlongest := hrest.ip_longest addr
  obtain ⟨c, v, heq, hc⟩ : ∃ c v, inetNtoa addr = c :: v ∧ isDigit c = true :=
    (((Regex.begins_cls _).cat _).cat _) _ (inetNtoa_mem_ip addr)
  obtain ⟨hletter, -, hhash, -⟩ := digit_classes hc
  rw [heq] at hscan hlongest ⊢
  rw [List.cons_append] at hscan hlongest
  cases hscan with
  | userid hc' _ =>
      rw [hletter] at hc'
      cases hc'
  | ip _ hn hs =>
      rw [hlongest] at hn
      cases hn
      rw [← List.cons_append, List.drop_left] at hs
      rw [← List.cons_append, List.take_left]
      exact ⟨rest, _, rfl, hs, hlater⟩
  | comment => exact absurd rfl hhash
  | skip _ hip _ _ =>
      rw [hip hc] at hlongest
      cases hlongest

end DialdTop
