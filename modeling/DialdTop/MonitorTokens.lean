import DialdTop.ConfLines
import DialdTop.MonitorRecords

/-!
# The tokens of well-formed records
-/

namespace DialdTop

open Scanner

namespace Monitor

/-! ## Scanning a text -/

abbrev ScanRule := Scanner.Rule Byte (Reaction StartCondition Token)

/-- The scanner gets through the text with the given tokens, the last of which
it has just returned. -/
inductive Scanned :
    Mode StartCondition → List Byte → List Token → Mode StartCondition → List Byte → Prop
  | refl {m : Mode StartCondition} {s : List Byte} : Scanned m s [] m s
  | token {m m' m'' : Mode StartCondition} {c : Byte} {s s' s'' : List Byte} {t : Token}
      {ts : List Token} :
      scanMatch isEndOfLine rules m c s = (.token t, m', s') → Scanned m' s' ts m'' s'' →
        Scanned m (c :: s) (t :: ts) m'' s''
  | silent {m m' m'' : Mode StartCondition} {c : Byte} {s s' s'' : List Byte} {t : Token}
      {ts : List Token} :
      scanMatch isEndOfLine rules m c s = (.silent, m', s') → Scanned m' s' (t :: ts) m'' s'' →
        Scanned m (c :: s) (t :: ts) m'' s''

theorem Scanned.append
    {m m' m'' : Mode StartCondition} {s s' s'' : List Byte} {ts ts' : List Token}
    (hfirst : Scanned m s ts m' s') (hlater : Scanned m' s' ts' m'' s'') :
    Scanned m s (ts ++ ts') m'' s'' := by
  induction hfirst with
  | refl => exact hlater
  | token hmatch _ ih => exact .token hmatch (ih hlater)
  | silent hmatch _ ih => exact .silent hmatch (ih hlater)

def lineStart : Mode StartCondition := { start := .initial, atBol := true }

def inLine : Mode StartCondition := { start := .initial, atBol := false }

theorem advance_inside
    {m : Mode StartCondition} {w : List Byte} (hne : w ≠ []) (hw : newline ∉ w)
    (begins : Option StartCondition) :
    m.advance isEndOfLine w begins = { start := begins.getD m.start, atBol := false } := by
  have hlast : w.getLast? = some (w.getLast hne) := List.getLast?_eq_some_getLast hne
  have hne' : w.getLast hne ≠ newline := by
    intro heq
    exact hw (heq ▸ List.getLast_mem hne)
  rw [Mode.advance, hlast]
  simp [isEndOfLine, hne']

theorem Scanned.single
    {m : Mode StartCondition} {before later : List ScanRule} {r : ScanRule}
    (henabled : enabled rules m = before ++ r :: later) {w rest : List Byte} (hne : w ≠ [])
    (hw : newline ∉ w)
    (hmatch : r.whole.longest (w ++ rest) = some (w.length + r.contextLength))
    (hbefore : ∀ r' ∈ before, ∀ n, r'.whole.longest (w ++ rest) = some n →
      n < w.length + r.contextLength)
    (hlater : ∀ r' ∈ later, ∀ n, r'.whole.longest (w ++ rest) = some n →
      n ≤ w.length + r.contextLength)
    {reaction : Reaction StartCondition Token} (haction : r.action w = some reaction) :
    Scanned m (w ++ rest) [reaction.token]
      { start := reaction.begins.getD m.start, atBol := false } rest := by
  cases w with
  | nil => exact absurd rfl hne
  | cons c w =>
      have hscan : scanMatch isEndOfLine rules m c (w ++ rest) = _ :=
        scanMatch_of_best henabled hmatch hbefore hlater
      rw [haction] at hscan
      simp only [advance_inside hne hw] at hscan
      exact .token hscan .refl

/-! ## The rules for the start of a line and for the rest of it -/

def keywordPart (atBol : Bool) : List ScanRule :=
  if atBol then keywordRules.map BoundRule.rule else []

theorem enabled_initial (atBol : Bool) :
    enabled rules { start := .initial, atBol := atBol } =
      keywordPart atBol ++
        [timeRule.rule, numRule.rule, ipRule.rule, portRule.rule, blankRule.rule,
          stringRule.rule, (newlineRule inclusive none).rule] := by
  cases atBol with
  | true => rfl
  | false => rfl

theorem rules_live : Live rules := by
  intro m
  rcases m with ⟨start, atBol⟩
  cases start <;> cases atBol <;> rfl

/-! ## Matches of single rules -/

theorem forall_of_none {P : ℕ → Prop} {o : Option ℕ} (h : o = none) :
    ∀ n, o = some n → P n := by
  intro n hn
  rw [h] at hn
  cases hn

theorem keyword_longest
    {atBol : Bool} {r : ScanRule} (hr : r ∈ keywordPart atBol) {s : List Byte} {n : ℕ}
    (h : r.whole.longest s = some n) :
    ∃ k ∈ keywords, k <+: s ∧ n = k.length := by
  cases atBol with
  | false => cases hr
  | true =>
      have hword : ∀ r' ∈ keywordPart true, ∃ k ∈ keywords, r'.whole = .word k := by
        simp only [keywordPart, if_true, keywordRules, List.map_cons, List.map_nil,
          List.forall_mem_cons]
        refine ⟨⟨bytes "STATE", by decide, rfl⟩, ⟨bytes "INTERFACE", by decide, rfl⟩,
          ⟨bytes "STATUS", by decide, rfl⟩, ⟨bytes "LOAD", by decide, rfl⟩,
          ⟨bytes "QUEUE", by decide, rfl⟩, ⟨bytes "END QUEUE", by decide, rfl⟩,
          ⟨bytes "MESSAGE", by decide, rfl⟩, by simp⟩
      rcases hword r hr with ⟨k, hk, hwhole⟩
      rw [hwhole, Regex.longest_word] at h
      exact ⟨k, hk, h.1, h.2⟩

/-- Keywords begin with a capital letter. -/
theorem keyword_longest_eq_none
    {atBol : Bool} {r : ScanRule} (hr : r ∈ keywordPart atBol) {c : Byte}
    (hc : ∀ k ∈ keywords, k.head? ≠ some c) (s : List Byte) :
    r.whole.longest (c :: s) = none := by
  cases hlongest : r.whole.longest (c :: s) with
  | none => rfl
  | some n =>
      rcases keyword_longest hr hlongest with ⟨k, hk, hstart, _⟩
      exfalso
      cases k with
      | nil => exact absurd hk (by decide)
      | cons d k =>
          have hhead : d = c := (List.cons_prefix_cons.mp hstart).1
          exact hc _ hk (by rw [hhead]; rfl)

theorem time_longest_eq_none {c : Byte} (hc : isDigit c = false) (s : List Byte) :
    timeRule.rule.whole.longest (c :: s) = none :=
  ((Regex.begins_cls isDigit).cat _).longest_eq_none hc s

theorem num_longest_eq_none {c : Byte} (hc : isDigit c = false) (s : List Byte) :
    numRule.rule.whole.longest (c :: s) = none :=
  ((Regex.begins_cls isDigit).cat _).longest_eq_none hc s

theorem ip_longest_eq_none {c : Byte} (hc : isDigit c = false) (s : List Byte) :
    ipRule.rule.whole.longest (c :: s) = none :=
  (((Regex.begins_cls isDigit).cat _).cat _).longest_eq_none hc s

theorem port_longest_eq_none {c : Byte} (hc : c ≠ slash) (s : List Byte) :
    portRule.rule.whole.longest (c :: s) = none :=
  ((Regex.begins_cls _).cat _).longest_eq_none (by simpa using hc) s

theorem blank_longest_eq_none {c : Byte} (hc : c ≠ blank) (s : List Byte) :
    blankRule.rule.whole.longest (c :: s) = none :=
  (Regex.begins_cls _).longest_eq_none (by simpa using hc) s

theorem string_longest_eq_none {c : Byte} (hc : isNondigit c = false) (s : List Byte) :
    stringRule.rule.whole.longest (c :: s) = none :=
  ((Regex.begins_cls isNondigit).cat _).longest_eq_none hc s

theorem newline_longest_eq_none
    {c : Byte} (hc : c ≠ newline) (active : StartCondition → Bool)
    (begins : Option StartCondition) (s : List Byte) :
    (newlineRule active begins).rule.whole.longest (c :: s) = none :=
  (Regex.begins_cls _).longest_eq_none (by simpa using hc) s

theorem time_within : timePattern.Within fun c => isDigit c || c = colon := by
  have hdigit : digitPattern.Within fun c => isDigit c || c = colon :=
    Regex.within_cls fun c hc => by simp [hc]
  have hcolon : (Regex.cls fun c : Byte => c = colon).Within fun c => isDigit c || c = colon :=
    Regex.within_cls (by simp)
  have hend := Regex.within_epsilon fun c => isDigit c || c = colon
  exact hdigit.cat (hdigit.cat (hcolon.cat (hdigit.cat (hdigit.cat
    (hcolon.cat (hdigit.cat (hdigit.cat hend)))))))

theorem num_within : numPattern.Within isDigit := by
  have hdigit : digitPattern.Within isDigit := Regex.within_cls fun _ hc => hc
  exact hdigit.cat hdigit.star

theorem port_within : portPattern.Within fun c => isDigit c || c = slash := by
  have hdigit : digitPattern.Within fun c => isDigit c || c = slash :=
    Regex.within_cls fun c hc => by simp [hc]
  have hslash : (Regex.cls fun c : Byte => c = slash).Within fun c => isDigit c || c = slash :=
    Regex.within_cls (by simp)
  have hfirst : (Regex.cls fun c : Byte => isDigit c && c ≠ 48).Within
      fun c => isDigit c || c = slash := by
    apply Regex.within_cls
    intro c hc
    rw [Bool.and_eq_true] at hc
    simp [hc.1]
  exact hslash.cat (hfirst.cat hdigit.star)

theorem string_within : stringPattern.Within fun c => c ≠ blank && c ≠ newline := by
  have hnondigit : (Regex.cls isNondigit).Within fun c => c ≠ blank && c ≠ newline := by
    apply Regex.within_cls
    intro c hc
    simp only [isNondigit, Bool.and_eq_true] at hc
    simp [hc.1.2, hc.2]
  have hnoslash : (Regex.cls isNoslash).Within fun c => c ≠ blank && c ≠ newline := by
    apply Regex.within_cls
    intro c hc
    simp only [isNoslash, Bool.and_eq_true] at hc
    simp [hc.1.2, hc.2]
  have hslash : (Regex.cls fun c : Byte => c = slash).Within
      fun c => c ≠ blank && c ≠ newline := by
    apply Regex.within_cls
    intro c hc
    rw [of_decide_eq_true hc]
    decide
  exact hnondigit.cat (hnoslash.star.cat
    (hslash.cat (hnondigit.cat hnoslash.star).opt).star)

/-- A match of the pattern for times has a colon in it. -/
theorem time_longest_of_no_colon {s : List Byte} (h : colon ∉ s) :
    timePattern.longest s = none := by
  rw [Regex.longest_eq_none_iff]
  intro w hstart hw
  have hcolon : colon ∈ w := by
    simp only [timePattern, Regex.mem_lang_cat, Regex.mem_lang_cls] at hw
    rcases hw with ⟨_, _, _, ⟨_, _, _, ⟨_, ⟨c, hc, rfl⟩, _, _, rfl⟩, rfl⟩, rfl⟩
    have heq : c = colon := of_decide_eq_true hc
    simp [heq]
  exact h (hstart.subset hcolon)

/-! ## Single tokens -/

theorem digit_facts {c : Byte} (hc : isDigit c = true) :
    c ≠ slash ∧ c ≠ blank ∧ c ≠ newline ∧ c ≠ colon ∧ isNondigit c = false ∧
      ∀ k ∈ keywords, k.head? ≠ some c := by
  rcases exists_digit hc with ⟨i, rfl⟩
  decide +revert

/-- At a digit only the rules for times, numbers and addresses match. -/
theorem others_of_digit
    {atBol : Bool} {c : Byte} (hc : isDigit c = true) (s : List Byte) :
    (∀ r ∈ keywordPart atBol, r.whole.longest (c :: s) = none) ∧
      ∀ r ∈ [portRule.rule, blankRule.rule, stringRule.rule, (newlineRule inclusive none).rule],
        r.whole.longest (c :: s) = none := by
  rcases digit_facts hc with ⟨hslash, hblank, hnewline, _, hnondigit, hkeyword⟩
  refine ⟨fun r hr => keyword_longest_eq_none hr hkeyword s, ?_⟩
  simp only [List.forall_mem_cons]
  exact ⟨port_longest_eq_none hslash s, blank_longest_eq_none hblank s,
    string_longest_eq_none hnondigit s, newline_longest_eq_none hnewline _ _ s, by simp⟩

theorem atoi_of_digits
    {digits : List Byte} (h : ∀ c ∈ digits, isDigit c = true)
    (hbounded : decimalValue digits < 2147483648) : atoi digits = decimalValue digits := by
  have htake : digits.takeWhile isDigit = digits := by
    rw [List.takeWhile_eq_self_iff]
    exact h
  rw [atoi, htake, min_eq_left (by omega)]
  rw [wrapInt, Int.bmod_def]
  omega

theorem scanned_of_digit
    {before later : List ScanRule} {r : ScanRule}
    (hrules : [timeRule.rule, numRule.rule, ipRule.rule] = before ++ r :: later)
    {w rest : List Byte} (hw : ∃ c more, w = c :: more ∧ isDigit c = true) (hline : newline ∉ w)
    (hmatch : r.whole.longest (w ++ rest) = some (w.length + r.contextLength))
    (hbefore : ∀ r' ∈ before, ∀ n, r'.whole.longest (w ++ rest) = some n →
      n < w.length + r.contextLength)
    (hlater : ∀ r' ∈ later, ∀ n, r'.whole.longest (w ++ rest) = some n →
      n ≤ w.length + r.contextLength)
    {t : Token} (haction : r.action w = some { token := t, begins := none }) (atBol : Bool) :
    Scanned { start := .initial, atBol := atBol } (w ++ rest) [t] inLine rest := by
  rcases hw with ⟨c, more, rfl, hc⟩
  have hothers := @others_of_digit atBol c hc (more ++ rest)
  have henabled : enabled rules { start := .initial, atBol := atBol } =
      (keywordPart atBol ++ before) ++ r ::
        (later ++ [portRule.rule, blankRule.rule, stringRule.rule,
          (newlineRule inclusive none).rule]) := by
    have hlist : [timeRule.rule, numRule.rule, ipRule.rule, portRule.rule, blankRule.rule,
        stringRule.rule, (newlineRule inclusive none).rule] =
        [timeRule.rule, numRule.rule, ipRule.rule] ++
          [portRule.rule, blankRule.rule, stringRule.rule, (newlineRule inclusive none).rule] :=
      rfl
    rw [enabled_initial, hlist, hrules]
    simp
  refine Scanned.single henabled (List.cons_ne_nil c more) hline hmatch ?_ ?_ haction
  · rw [List.forall_mem_append]
    exact ⟨fun r' hr' => forall_of_none (hothers.1 r' hr'), hbefore⟩
  · rw [List.forall_mem_append]
    exact ⟨hlater, fun r' hr' => forall_of_none (hothers.2 r' hr')⟩

theorem begins_with_digit
    {digits : List Byte} (hne : digits ≠ []) (h : ∀ c ∈ digits, isDigit c = true) :
    ∃ c more, digits = c :: more ∧ isDigit c = true := by
  cases digits with
  | nil => exact absurd rfl hne
  | cons c more => exact ⟨c, more, rfl, h c List.mem_cons_self⟩

theorem mem_numPattern
    {digits : List Byte} (hne : digits ≠ []) (h : ∀ c ∈ digits, isDigit c = true) :
    digits ∈ numPattern.lang := by
  cases digits with
  | nil => exact absurd rfl hne
  | cons c more =>
      rw [numPattern, digitPattern, Regex.mem_lang_cls_cat]
      refine ⟨c, more, rfl, h c List.mem_cons_self, ?_⟩
      rw [Regex.mem_lang_star_cls]
      exact fun d hd => h d (List.mem_cons_of_mem c hd)

theorem time_longest_of_stop
    {w rest : List Byte} {d : Byte} (hd : (isDigit d || d = colon) = false) (hw : colon ∉ w) :
    timeRule.rule.whole.longest (w ++ d :: rest) = none := by
  have hstop : timePattern.longest (w ++ d :: rest) = timePattern.longest w :=
    time_within.longest_append_cons hd w rest
  exact hstop.trans (time_longest_of_no_colon hw)

theorem scanned_num (atBol : Bool) (n : Numeral) (rest : List Byte) :
    Scanned { start := .initial, atBol := atBol } (n.digits ++ newline :: rest) [numToken n]
      inLine (newline :: rest) := by
  have hnewline : newline ∉ n.digits := fun h => absurd (n.isDigits newline h) (by decide)
  have hcolon : colon ∉ n.digits := fun h => absurd (n.isDigits colon h) (by decide)
  have hown : numRule.rule.whole.longest (n.digits ++ newline :: rest) = some n.digits.length :=
    num_within.longest_of_mem (by decide) (mem_numPattern n.nonempty n.isDigits) rest
  have haction : numRule.rule.action n.digits =
      some { token := numToken n, begins := none } := by
    change token .num (.number (atoi n.digits)) none = _
    rw [atoi_of_digits n.isDigits n.bounded]
    rfl
  have hrules : [timeRule.rule, numRule.rule, ipRule.rule] =
      [timeRule.rule] ++ numRule.rule :: [ipRule.rule] := rfl
  refine scanned_of_digit hrules (begins_with_digit n.nonempty n.isDigits) hnewline hown ?_ ?_
    haction atBol
  · rw [List.forall_mem_singleton]
    exact forall_of_none (time_longest_of_stop (by decide) hcolon)
  · rw [List.forall_mem_singleton]
    intro m hm
    exact ip_within.longest_le (by decide) hm

theorem isDigit_digit (i : Fin 10) : isDigit (digit i) = true := by
  decide +revert

theorem Clock.text_mem (t : Clock) : t.text ∈ timePattern.lang := by
  have hcons : ∀ (i : Fin 10) (r : Regex Byte) (w : List Byte), w ∈ r.lang →
      digit i :: w ∈ (Regex.cat digitPattern r).lang := by
    intro i r w hw
    exact (Regex.mem_lang_cls_cat _ _ _).mpr ⟨digit i, w, rfl, isDigit_digit i, hw⟩
  have hcolon : ∀ (r : Regex Byte) (w : List Byte), w ∈ r.lang →
      colon :: w ∈ (Regex.cat (.cls fun c => c = colon) r).lang := by
    intro r w hw
    exact (Regex.mem_lang_cls_cat _ _ _).mpr ⟨colon, w, rfl, by simp, hw⟩
  exact hcons _ _ _ (hcons _ _ _ (hcolon _ _ (hcons _ _ _ (hcons _ _ _
    (hcolon _ _ (hcons _ _ _ (hcons _ _ _ rfl)))))))

theorem scanned_time (atBol : Bool) (t : Clock) (rest : List Byte) :
    Scanned { start := .initial, atBol := atBol } (t.text ++ newline :: rest) [timeToken t]
      inLine (newline :: rest) := by
  have hnewline : newline ∉ t.text := by
    intro h
    exact absurd (time_within t.text t.text_mem newline h) (by decide)
  have hown : timeRule.rule.whole.longest (t.text ++ newline :: rest) = some t.text.length :=
    time_within.longest_of_mem (by decide) t.text_mem rest
  have hrules : [timeRule.rule, numRule.rule, ipRule.rule] =
      [] ++ timeRule.rule :: [numRule.rule, ipRule.rule] := rfl
  refine scanned_of_digit hrules ⟨_, _, rfl, isDigit_digit t.hours.1⟩ hnewline hown ?_ ?_ rfl
    atBol
  · simp
  · simp only [List.forall_mem_cons]
    refine ⟨?_, ?_, by simp⟩
    · intro m hm
      exact num_within.longest_le (by decide) hm
    · intro m hm
      exact ip_within.longest_le (by decide) hm

theorem Quad.text_mem (q : Quad) : q.text ∈ ipPattern.lang := by
  have hgroup : ∀ g : Group, g.digits ∈ ConfScanner.octet.lang := fun g =>
    mem_octet g.nonempty g.short g.isDigits
  have hcons : ∀ (g : Group) (r : Regex Byte) (w : List Byte), w ∈ r.lang →
      g.digits ++ dot :: w ∈
        (Regex.cat ConfScanner.octet (.cat ConfScanner.point r)).lang := by
    intro g r w hw
    refine (Regex.mem_lang_cat _ _ _).mpr ⟨g.digits, hgroup g, dot :: w, ?_, rfl⟩
    exact (Regex.mem_lang_cls_cat _ _ _).mpr ⟨dot, w, rfl, by simp, hw⟩
  exact hcons _ _ _ (hcons _ _ _ (hcons _ _ _ (hgroup q.fourth)))

theorem Quad.begins (q : Quad) : ∃ c more, q.text = c :: more ∧ isDigit c = true := by
  rcases begins_with_digit q.first.nonempty q.first.isDigits with ⟨c, more, hdigits, hc⟩
  exact ⟨c, _, by rw [Quad.text, hdigits]; rfl, hc⟩

/-- An address in front of the end of the line or of a port. -/
theorem scanned_ip
    (atBol : Bool) (q : Quad) {d : Byte} (hd : d = newline ∨ d = slash) (rest : List Byte) :
    Scanned { start := .initial, atBol := atBol } (q.text ++ d :: rest) [ipToken q]
      inLine (d :: rest) := by
  have hstop : isDigit d = false ∧ (isDigit d || d = dot) = false ∧
      (isDigit d || d = colon) = false := by
    rcases hd with rfl | rfl <;> decide
  have hnewline : newline ∉ q.text := by
    intro h
    exact absurd (ip_within q.text q.text_mem newline h) (by decide)
  have hcolon : colon ∉ q.text := by
    intro h
    exact absurd (ip_within q.text q.text_mem colon h) (by decide)
  have hown : ipRule.rule.whole.longest (q.text ++ d :: rest) = some q.text.length :=
    ip_within.longest_of_mem hstop.2.1 q.text_mem rest
  have hrules : [timeRule.rule, numRule.rule, ipRule.rule] =
      [timeRule.rule, numRule.rule] ++ ipRule.rule :: [] := rfl
  refine scanned_of_digit hrules q.begins hnewline hown ?_ ?_ rfl atBol
  · simp only [List.forall_mem_cons]
    refine ⟨forall_of_none (time_longest_of_stop hstop.2.2 hcolon), ?_, by simp⟩
    intro m hm
    -- A number ends at the first point.
    have hshort : m ≤ q.first.digits.length := by
      rw [Quad.text, List.append_assoc, List.cons_append] at hm
      exact num_within.longest_le (by decide) hm
    have hlength : q.first.digits.length < q.text.length := by
      simp [Quad.text]
    exact lt_of_le_of_lt hshort hlength
  · simp

theorem Port.tail_isDigit (p : Port) : ∀ c ∈ p.more, isDigit c = true := by
  intro c hc
  exact p.isDigits c (List.mem_cons_of_mem p.first hc)

theorem Port.text_mem (p : Port) : p.text ∈ portPattern.lang := by
  have hfirst : (isDigit p.first && decide (p.first ≠ 48)) = true := by
    simp [p.isDigits p.first List.mem_cons_self, p.positive]
  refine (Regex.mem_lang_cls_cat _ _ _).mpr ⟨slash, _, rfl, by simp, ?_⟩
  refine (Regex.mem_lang_cls_cat _ _ _).mpr ⟨p.first, p.more, rfl, hfirst, ?_⟩
  exact (Regex.mem_lang_star_cls _ _).mpr p.tail_isDigit

/-- The slash could also begin a word, which is not longer. -/
theorem scanned_port (p : Port) (rest : List Byte) :
    Scanned inLine (p.text ++ blank :: rest) [portToken p] inLine (blank :: rest) := by
  have hnewline : newline ∉ p.text := by
    intro h
    exact absurd (port_within p.text p.text_mem newline h) (by decide)
  have hown : portRule.rule.whole.longest (p.text ++ blank :: rest) = some p.text.length :=
    port_within.longest_of_mem (by decide) p.text_mem rest
  have haction : portRule.rule.action p.text =
      some { token := portToken p, begins := none } := by
    have hbounded := p.bounded
    change token .port (.number (atoi (p.first :: p.more))) none = _
    rw [atoi_of_digits p.isDigits (by omega)]
    rfl
  have henabled : enabled rules inLine =
      [timeRule.rule, numRule.rule, ipRule.rule] ++ portRule.rule ::
        [blankRule.rule, stringRule.rule, (newlineRule inclusive none).rule] := rfl
  have hslash : isDigit slash = false := by decide
  refine Scanned.single henabled (List.cons_ne_nil _ _) hnewline hown ?_ ?_ haction
  · simp only [List.forall_mem_cons]
    exact ⟨forall_of_none (time_longest_eq_none hslash _),
      forall_of_none (num_longest_eq_none hslash _),
      forall_of_none (ip_longest_eq_none hslash _), by simp⟩
  · simp only [List.forall_mem_cons]
    refine ⟨forall_of_none (blank_longest_eq_none (by decide) _), ?_,
      forall_of_none (newline_longest_eq_none (by decide) _ _ _), by simp⟩
    intro m hm
    exact string_within.longest_le (by decide) hm

/-- What may stand behind a word. -/
def EndsWord (d : Byte) (rest : List Byte) : Prop :=
  d = newline ∨ d = blank ∧ ∃ e more, rest = e :: more ∧ isDigit e = true

theorem Word.notMem (w : Word) : blank ∉ w.text ∧ newline ∉ w.text := by
  have hbegins := w.begins.1
  simp only [isNondigit, Bool.and_eq_true, decide_eq_true_eq] at hbegins
  have hcontinues : ∀ c ∈ w.more, c ≠ blank ∧ c ≠ newline := by
    intro c hc
    have h := w.continues c hc
    simp only [isNoslash, Bool.and_eq_true, decide_eq_true_eq] at h
    exact ⟨h.1.2, h.2⟩
  constructor
  · intro h
    rcases List.mem_cons.mp h with h | h
    · exact hbegins.1.2 h.symm
    · exact (hcontinues blank h).1 rfl
  · intro h
    rcases List.mem_cons.mp h with h | h
    · exact hbegins.2 h.symm
    · exact (hcontinues newline h).2 rfl

theorem Word.text_mem (w : Word) : w.text ∈ stringPattern.lang := by
  refine (Regex.mem_lang_cls_cat _ _ _).mpr ⟨w.first, w.more, rfl, w.begins.1, ?_⟩
  refine (Regex.mem_lang_cat _ _ _).mpr ⟨w.more, ?_, [], Language.nil_mem_kstar _, ?_⟩
  · exact (Regex.mem_lang_star_cls _ _).mpr w.continues
  · exact List.append_nil w.more

theorem keyword_facts :
    ∀ k ∈ keywords, newline ∉ k ∧ (∀ c ∈ k, isDigit c = false) ∧ k.getLast? ≠ some blank := by
  decide +kernel

/-- A keyword which the text begins with is a part of the word. -/
theorem keyword_shorter
    (w : Word) {d : Byte} {rest : List Byte} (hends : EndsWord d rest) {k : List Byte}
    (hk : k ∈ keywords) (hstart : k <+: w.text ++ d :: rest) : k.length < w.text.length := by
  by_contra hlong
  have hword : w.text <+: k :=
    List.prefix_of_prefix_length_le (List.prefix_append w.text _) hstart (Nat.not_lt.mp hlong)
  rcases hword with ⟨v, rfl⟩
  rcases keyword_facts _ hk with ⟨hnewline, hdigits, hlast⟩
  rw [List.prefix_append_right_inj] at hstart
  cases v with
  | nil =>
      rw [List.append_nil] at hk
      exact w.notKeyword hk
  | cons d' v =>
      rcases List.cons_prefix_cons.mp hstart with ⟨rfl, hv⟩
      rcases hends with rfl | ⟨rfl, e, more, rfl, he⟩
      · exact hnewline (by simp)
      · cases v with
        | nil => exact hlast (by simp)
        | cons e' v =>
            rcases List.cons_prefix_cons.mp hv with ⟨rfl, _⟩
            rw [hdigits e' (by simp)] at he
            cases he

theorem scanned_word
    (w : Word) {d : Byte} {rest : List Byte} (hends : EndsWord d rest) :
    Scanned lineStart (w.text ++ d :: rest) [stringToken w.text] inLine (d :: rest) := by
  have hstop : (decide (d ≠ blank) && decide (d ≠ newline)) = false := by
    rcases hends with rfl | ⟨rfl, _⟩ <;> decide
  have hown : stringRule.rule.whole.longest (w.text ++ d :: rest) = some w.text.length :=
    string_within.longest_of_mem hstop w.text_mem rest
  have henabled : enabled rules lineStart =
      (keywordPart true ++
        [timeRule.rule, numRule.rule, ipRule.rule, portRule.rule, blankRule.rule]) ++
        stringRule.rule :: [(newlineRule inclusive none).rule] := rfl
  have hbegins := w.begins.1
  simp only [isNondigit, Bool.and_eq_true, Bool.not_eq_true', decide_eq_true_eq] at hbegins
  rcases hbegins with ⟨⟨hdigit, hblank⟩, hnewline⟩
  refine Scanned.single henabled (List.cons_ne_nil _ _) w.notMem.2 hown ?_ ?_ rfl
  · rw [List.forall_mem_append]
    constructor
    · intro r hr n hn
      rcases keyword_longest hr hn with ⟨k, hk, hstart, rfl⟩
      exact keyword_shorter w hends hk hstart
    · simp only [List.forall_mem_cons]
      exact ⟨forall_of_none (time_longest_eq_none hdigit _),
        forall_of_none (num_longest_eq_none hdigit _),
        forall_of_none (ip_longest_eq_none hdigit _),
        forall_of_none (port_longest_eq_none w.begins.2 _),
        forall_of_none (blank_longest_eq_none hblank _), by simp⟩
  · rw [List.forall_mem_singleton]
    exact forall_of_none (newline_longest_eq_none hnewline _ _ _)

theorem scanned_blank
    {rest s : List Byte} {t : Token} {ts : List Token} {m : Mode StartCondition}
    (h : Scanned inLine rest (t :: ts) m s) : Scanned inLine (blank :: rest) (t :: ts) m s := by
  have henabled : enabled rules inLine =
      [timeRule.rule, numRule.rule, ipRule.rule, portRule.rule] ++ blankRule.rule ::
        [stringRule.rule, (newlineRule inclusive none).rule] := rfl
  have hown : blankRule.rule.whole.longest ([blank] ++ rest) = some 1 :=
    Regex.longest_cls (by decide) rest
  have hdigit : isDigit blank = false := by decide
  have hscan : scanMatch isEndOfLine rules inLine blank ([] ++ rest) =
      (.silent, inLine, rest) := by
    refine (scanMatch_of_best henabled hown ?_ ?_).trans rfl
    · simp only [List.forall_mem_cons]
      exact ⟨forall_of_none (time_longest_eq_none hdigit _),
        forall_of_none (num_longest_eq_none hdigit _),
        forall_of_none (ip_longest_eq_none hdigit _),
        forall_of_none (port_longest_eq_none (by decide) _), by simp⟩
    · simp only [List.forall_mem_cons]
      exact ⟨forall_of_none (string_longest_eq_none (by decide) _),
        forall_of_none (newline_longest_eq_none (by decide) _ _ _), by simp⟩
  exact .silent hscan h

/-! ## Ends of lines -/

theorem scanned_newline
    {m : Mode StartCondition} {before later : List ScanRule} {active : StartCondition → Bool}
    {begins : Option StartCondition}
    (henabled : enabled rules m = before ++ (newlineRule active begins).rule :: later)
    (hbefore : ∀ s, ∀ r ∈ before, r.whole.longest (newline :: s) = none)
    (hlater : ∀ r ∈ later, ∃ active begins, r = (newlineRule active begins).rule)
    (rest : List Byte) :
    Scanned m (newline :: rest) [symbolToken .newline]
      { start := begins.getD m.start, atBol := true } rest := by
  have hlongest : ∀ active begins,
      (newlineRule active begins).rule.whole.longest ([newline] ++ rest) = some 1 :=
    fun _ _ => Regex.longest_cls (by decide) rest
  have hscan : scanMatch isEndOfLine rules m newline ([] ++ rest) =
      (.token (symbolToken .newline), { start := begins.getD m.start, atBol := true }, rest) := by
    refine (scanMatch_of_best henabled (hlongest active begins) ?_ ?_).trans rfl
    · exact fun r hr => forall_of_none (hbefore rest r hr)
    · intro r hr n hn
      rcases hlater r hr with ⟨active', begins', rfl⟩
      have hone : some n = some 1 := hn.symm.trans (hlongest active' begins')
      rw [Option.some.inj hone]
      exact Nat.le_refl 1
  exact .token hscan .refl

theorem inLine_at_newline (s : List Byte) :
    ∀ r ∈ [timeRule.rule, numRule.rule, ipRule.rule, portRule.rule, blankRule.rule,
      stringRule.rule], r.whole.longest (newline :: s) = none := by
  have hdigit : isDigit newline = false := by decide
  simp only [List.forall_mem_cons]
  exact ⟨time_longest_eq_none hdigit s, num_longest_eq_none hdigit s,
    ip_longest_eq_none hdigit s, port_longest_eq_none (by decide) s,
    blank_longest_eq_none (by decide) s, string_longest_eq_none (by decide) s, by simp⟩

theorem scanned_end_of_line (rest : List Byte) :
    Scanned inLine (newline :: rest) [symbolToken .newline] lineStart rest := by
  have henabled : enabled rules inLine =
      [timeRule.rule, numRule.rule, ipRule.rule, portRule.rule, blankRule.rule,
        stringRule.rule] ++ (newlineRule inclusive none).rule :: [] := rfl
  exact scanned_newline henabled inLine_at_newline (by simp) rest

theorem scanned_end_of_message (rest : List Byte) :
    Scanned { start := .inMessage, atBol := false } (newline :: rest) [symbolToken .newline]
      lineStart rest := by
  have henabled : enabled rules { start := .inMessage, atBol := false } =
      [] ++ (newlineRule (· = .inMessage) (some .initial)).rule :: [] := rfl
  exact scanned_newline henabled (by simp) (by simp) rest

theorem scanned_before_message (rest : List Byte) :
    Scanned { start := .preMessage, atBol := false } (newline :: rest) [symbolToken .newline]
      { start := .inMessage, atBol := true } rest := by
  have henabled : enabled rules { start := .preMessage, atBol := false } =
      [timeRule.rule, numRule.rule, ipRule.rule, portRule.rule, blankRule.rule,
        stringRule.rule] ++ (newlineRule (· = .preMessage) (some .inMessage)).rule ::
        [(newlineRule inclusive none).rule] := rfl
  refine scanned_newline henabled inLine_at_newline ?_ rest
  rw [List.forall_mem_singleton]
  exact ⟨inclusive, none, rfl⟩

theorem mem_message_lang (w : List Byte) :
    w ∈ messageRule.rule.whole.lang ↔ ∃ u, newline ∉ u ∧ w = u ++ [newline] := by
  change w ∈ (Regex.cat (.star (.cls fun c : Byte => c ≠ newline))
    (.cls fun c => c = newline)).lang ↔ _
  simp only [Regex.mem_lang_cat, Regex.mem_lang_star_cls, Regex.mem_lang_cls, decide_eq_true_eq]
  constructor
  · rintro ⟨u, hu, _, ⟨c, rfl, rfl⟩, rfl⟩
    exact ⟨u, fun h => hu newline h rfl, rfl⟩
  · rintro ⟨u, hu, rfl⟩
    exact ⟨u, fun c hc heq => hu (heq ▸ hc), _, ⟨newline, rfl, rfl⟩, rfl⟩

/-- The line up to its newline, which may be empty. -/
theorem message_longest {u : List Byte} (hu : newline ∉ u) (rest : List Byte) :
    messageRule.rule.whole.longest (u ++ newline :: rest) = some (u.length + 1) :=
  Regex.longest_of_terminated (fun w hw => (mem_message_lang w).mp hw)
    ((mem_message_lang _).mpr ⟨u, hu, rfl⟩) rest

/-- The text of a message, whose rule looks at the end of the line. -/
theorem scanned_message (line : Message) (rest : List Byte) :
    Scanned { start := .inMessage, atBol := true } (line.text ++ newline :: rest)
      [stringToken line.text] { start := .inMessage, atBol := false } (newline :: rest) := by
  have hown : messageRule.rule.whole.longest (line.text ++ newline :: rest) =
      some (line.text.length + 1) :=
    message_longest line.oneLine rest
  have henabled : enabled rules { start := .inMessage, atBol := true } =
      [] ++ messageRule.rule ::
        [(newlineRule (· = .inMessage) (some .initial)).rule] := rfl
  refine Scanned.single henabled line.nonempty line.oneLine hown (by simp) ?_ rfl
  rw [List.forall_mem_singleton]
  cases htext : line.text with
  | nil => exact absurd htext line.nonempty
  | cons c w =>
      have hc : c ≠ newline := by
        intro heq
        apply line.oneLine
        rw [htext, heq]
        exact List.mem_cons_self
      exact forall_of_none (newline_longest_eq_none hc _ _ _)

/-! ## Keywords -/

/-- A text at whose end of line the scanner is stuck. -/
theorem scanned_of_jammed
    {m m' : Mode StartCondition} {w : List Byte} {t : Token}
    (h : ∃ c s, w = c :: s ∧ jammed (enabled rules m) (c :: (s ++ [newline])) = true ∧
      scanMatch isEndOfLine rules m c (s ++ [newline]) = (.token t, m', [newline]))
    (rest : List Byte) :
    Scanned m (w ++ newline :: rest) [t] m' (newline :: rest) := by
  rcases h with ⟨c, s, rfl, hjammed, hscan⟩
  have hwhole : scanMatch isEndOfLine rules m c (s ++ [newline] ++ rest) = _ :=
    scanMatch_of_jammed hjammed rest
  rw [hscan, List.append_assoc, List.singleton_append] at hwhole
  exact .token hwhole .refl

def keywordKinds : List (String × TokenKind) :=
  [("STATE", .state), ("INTERFACE", .interface), ("STATUS", .status), ("LOAD", .load),
    ("QUEUE", .queue), ("END QUEUE", .endqueue)]

theorem scanned_keyword
    (k : String) (kind : TokenKind) (hk : (k, kind) ∈ keywordKinds) (rest : List Byte) :
    Scanned lineStart (bytes k ++ newline :: rest) [symbolToken kind] inLine
      (newline :: rest) := by
  have hclosed : ∀ p ∈ keywordKinds,
      ∃ c s, bytes p.1 = c :: s ∧
        jammed (enabled rules lineStart) (c :: (s ++ [newline])) = true ∧
        scanMatch isEndOfLine rules lineStart c (s ++ [newline]) =
          (.token (symbolToken p.2), inLine, [newline]) := by
    simp only [keywordKinds, List.forall_mem_cons]
    refine ⟨?_, ?_, ?_, ?_, ?_, ?_, by simp⟩ <;>
      exact ⟨_, _, rfl, by decide +kernel, by decide +kernel⟩
  exact scanned_of_jammed (hclosed _ hk) rest

theorem scanned_message_keyword (rest : List Byte) :
    Scanned lineStart (bytes "MESSAGE" ++ newline :: rest) [symbolToken .message]
      { start := .preMessage, atBol := false } (newline :: rest) := by
  exact scanned_of_jammed ⟨_, _, rfl, by decide +kernel, by decide +kernel⟩ rest

/-! ## Lines and parts -/

/-- A line whose token the scanner has found. -/
theorem Scanned.line
    {m : Mode StartCondition} {s rest : List Byte} {t : Token}
    (h : Scanned m s [t] inLine (newline :: rest)) :
    Scanned m s (lineTokens t) lineStart rest :=
  h.append (scanned_end_of_line rest)

theorem endsWord_newline (rest : List Byte) : EndsWord newline rest := Or.inl rfl

theorem scanned_report (r : Report) (rest : List Byte) :
    Scanned lineStart (unlines r.lines ++ rest) r.tokens lineStart rest := by
  have hnum := fun n rest => (scanned_num true n rest).line
  have htime := fun t rest => (scanned_time true t rest).line
  have hip := fun q rest => (scanned_ip true q (Or.inl rfl) rest).line
  have hword := fun w rest => (scanned_word w (endsWord_newline rest)).line
  cases r with
  | status up force im imItm imTm imFuzz imTo forceTo to_ =>
      simp only [Report.lines, unlines_cons, unlines_nil, List.append_assoc, List.cons_append,
        List.nil_append]
      have hkeyword := fun rest => (scanned_keyword "STATUS" .status (by decide) rest).line
      have hnums := fun rest => (((((hkeyword _).append (hnum up _)).append
        (hnum force _)).append (hnum im _)).append (hnum imItm _)).append (hnum imTm rest)
      exact ((((hnums _).append (hnum imFuzz _)).append (htime imTo _)).append
        (htime forceTo _)).append (htime to_ rest)
  | load itxtotal irxtotal =>
      simp only [Report.lines, unlines_cons, unlines_nil, List.append_assoc, List.cons_append,
        List.nil_append]
      have hkeyword := fun rest => (scanned_keyword "LOAD" .load (by decide) rest).line
      exact ((hkeyword _).append (hnum itxtotal _)).append (hnum irxtotal rest)
  | interface name localIp remoteIp =>
      simp only [Report.lines, unlines_cons, unlines_nil, List.append_assoc, List.cons_append,
        List.nil_append]
      have hkeyword := fun rest => (scanned_keyword "INTERFACE" .interface (by decide) rest).line
      exact (((hkeyword _).append (hword name _)).append (hip localIp _)).append
        (hip remoteIp rest)
  | state name =>
      simp only [Report.lines, unlines_cons, unlines_nil, List.append_assoc, List.cons_append,
        List.nil_append]
      have hkeyword := fun rest => (scanned_keyword "STATE" .state (by decide) rest).line
      exact (hkeyword _).append (hword name rest)
  | message line =>
      simp only [Report.lines, unlines_cons, unlines_nil, List.append_assoc, List.cons_append,
        List.nil_append]
      exact ((scanned_message_keyword _).append (scanned_before_message _)).append
        ((scanned_message line _).append (scanned_end_of_message rest))

theorem scanned_packet (p : Packet) (rest : List Byte) :
    Scanned lineStart (p.line ++ newline :: rest) p.tokens lineStart rest := by
  have haddress : ∀ (q : Quad) (port : Port) (s : List Byte) {t : Token} {ts : List Token},
      Scanned inLine s (t :: ts) lineStart rest →
        Scanned inLine (q.text ++ (port.text ++ blank :: s))
          (ipToken q :: portToken port :: t :: ts) lineStart rest := by
    intro q port s t ts hs
    have hport := (scanned_port port s).append (scanned_blank hs)
    exact (scanned_ip false q (Or.inr rfl) _).append hport
  have htime : Scanned inLine (p.ttl.text ++ newline :: rest) (lineTokens (timeToken p.ttl))
      lineStart rest := (scanned_time false p.ttl rest).line
  have hsecond := haddress p.ip2 p.port2 _ htime
  have hfirst := haddress p.ip1 p.port1 _ hsecond
  have hends : EndsWord blank (p.ip1.text ++ (p.port1.text ++ blank ::
      (p.ip2.text ++ (p.port2.text ++ blank :: (p.ttl.text ++ newline :: rest))))) := by
    rcases p.ip1.begins with ⟨c, more, hdigits, hc⟩
    exact Or.inr ⟨rfl, c, _, by rw [hdigits]; rfl, hc⟩
  simp only [Packet.line, List.append_assoc, List.cons_append]
  exact (scanned_word p.protocol hends).append (scanned_blank hfirst)

theorem scanned_part (p : Part) (rest : List Byte) :
    Scanned lineStart (p.text ++ rest) p.tokens lineStart rest := by
  cases p with
  | report r => exact scanned_report r rest
  | queue => exact (scanned_keyword "QUEUE" .queue (by decide) rest).line
  | packet p =>
      simp only [Part.text, unlines_cons, unlines_nil, List.append_assoc, List.cons_append,
        List.nil_append]
      exact scanned_packet p rest
  | endqueue => exact (scanned_keyword "END QUEUE" .endqueue (by decide) rest).line

end Monitor

end DialdTop
