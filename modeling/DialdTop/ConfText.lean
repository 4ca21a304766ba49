import DialdTop.ConfGrammar
import DialdTop.ConfLines

/-!
# Text of the configuration file

A text is cut into its lines, scanned line by line, and parsed.  The entries
which the parser passes to `auth_add` come from the lines with a letter in
front of the comment, in their order.
-/

namespace DialdTop

open Scanner ConfScanner

/-- The lines of a text which end with a newline. -/
def confLines (text : List Byte) : List (List Byte) :=
  (text.splitOn newline).dropLast

theorem confLines_unlines
    {lines : List (List Byte)} (hlines : ∀ line ∈ lines, newline ∉ line)
    (last : List Byte) (hlast : newline ∉ last) :
    confLines (unlines lines ++ last) = lines := by
  have hsplit : (unlines lines ++ last).splitOn newline = lines ++ [last] := by
    induction lines with
    | nil => exact List.splitOn_eq_singleton hlast
    | cons line lines ih =>
        rw [unlines_cons, List.append_assoc, List.cons_append,
          List.splitOn_append_cons_self_of_not_mem (hlines line (by simp)),
          ih fun l hl => hlines l (List.mem_cons_of_mem _ hl)]
        rfl
  rw [confLines, hsplit, List.dropLast_concat]

/-- Every text consists of its lines and a rest without newline. -/
theorem exists_unlines (text : List Byte) :
    ∃ last, newline ∉ last ∧ (∀ line ∈ confLines text, newline ∉ line) ∧
      text = unlines (confLines text) ++ last := by
  obtain ⟨lines, last, hlast, hlines, rfl⟩ := exists_lines_append text
  rw [confLines_unlines hlines last hlast]
  exact ⟨last, hlast, hlines, rfl⟩

/-! ## Tokens of a text -/

theorem exists_lineScans (lines : List (List Byte)) :
    ∃ tss, List.Forall₂ LineScan lines tss := by
  induction lines with
  | nil => exact ⟨[], .nil⟩
  | cons line lines ih =>
      obtain ⟨tss, htss⟩ := ih
      obtain ⟨ts, hts⟩ := exists_lineScan line
      exact ⟨ts :: tss, .cons hts htss⟩

/-- The tokens of lines whose own tokens are known. -/
def tokensOfLines (tss : List (List ConfToken)) : List ConfToken :=
  tss.flatMap (· ++ [.newline])

@[simp] theorem tokensOfLines_cons (ts : List ConfToken) (tss : List (List ConfToken)) :
    tokensOfLines (ts :: tss) = ts ++ .newline :: tokensOfLines tss := by
  simp [tokensOfLines]

theorem scans_unlines
    {lines : List (List Byte)} {tss : List (List ConfToken)}
    (hscan : List.Forall₂ LineScan lines tss)
    (hlines : ∀ line ∈ lines, newline ∉ line) (rest : List Byte) :
    Scans rules (unlines lines ++ rest) (tokensOfLines tss) rest := by
  induction hscan with
  | nil => exact .refl
  | @cons line ts lines tss hline _ ih =>
      have hnewline : Scans rules (newline :: (unlines lines ++ rest)) [.newline]
          (unlines lines ++ rest) := Scans.single (step_newline _)
      have hlater := ih fun l hl => hlines l (List.mem_cons_of_mem _ hl)
      have hfirst := hline.scans (hlines line (by simp)) (unlines lines ++ rest)
      have hall := hfirst.append (hnewline.append hlater)
      simpa using hall

theorem confTokens_unlines
    {lines : List (List Byte)} {tss : List (List ConfToken)}
    (hscan : List.Forall₂ LineScan lines tss)
    (hlines : ∀ line ∈ lines, newline ∉ line) :
    confTokens (unlines lines) = tokensOfLines tss := by
  have h := scans_unlines hscan hlines []
  rw [List.append_nil] at h
  exact confTokens_eq_iff.mpr h

theorem confLines_unlines_nil
    {lines : List (List Byte)} (hlines : ∀ line ∈ lines, newline ∉ line) :
    confLines (unlines lines) = lines := by
  have h := confLines_unlines hlines [] (by simp)
  rwa [List.append_nil] at h

/-- The tokens of a text, line by line. -/
theorem exists_confTokens (text : List Byte) :
    ∃ tss later, List.Forall₂ LineScan (confLines text) tss ∧
      ConfToken.newline ∉ later ∧ confTokens text = tokensOfLines tss ++ later := by
  obtain ⟨last, hlast, hlines, htext⟩ := exists_unlines text
  obtain ⟨tss, hscan⟩ := exists_lineScans (confLines text)
  obtain ⟨later, hlater⟩ := exists_scans rules_progressive last
  refine ⟨tss, later, hscan, newline_notMem_of_scans hlater hlast, ?_⟩
  rw [confTokens_eq_iff]
  have hall := (scans_unlines hscan hlines last).append hlater
  rwa [← htext] at hall

/-! ## The parser on lines -/

/-- The tokens of an entry without the final newline. -/
def ConfEntry.symbols (e : ConfEntry) : List ConfToken :=
  [.userid e.userid, .ip e.ip, .ip e.netmask]

theorem ConfEntry.tokens_eq (e : ConfEntry) (later : List ConfToken) :
    e.tokens ++ later = e.symbols ++ .newline :: later := rfl

/-- A line which the parser gets through has no tokens or those of an entry. -/
theorem yyparse_line
    {garbage : ℕ → BitVec 32} {k : ℕ} {started : Bool} {ts later : List ConfToken}
    {aq aq' : List AuthData} (hts : ConfToken.newline ∉ ts)
    (hparse : yyparse garbage k started (ts ++ .newline :: later) aq = .ok aq') :
    ts = [] ∨ ∃ e : ConfEntry, ts = e.symbols := by
  generalize hall : ts ++ .newline :: later = all at hparse
  unfold yyparse at hparse
  split at hparse
  next =>
    simp at hall
  next =>
    cases ts with
    | nil => exact .inl rfl
    | cons t ts =>
        rw [List.cons_append, List.cons.injEq] at hall
        exact absurd (hall.1 ▸ List.mem_cons_self) hts
  next user a m _ =>
    -- The first newline of the text is the one behind the line.
    right
    refine ⟨⟨user, a, m⟩, ?_⟩
    match ts with
    | [] => simp at hall
    | [_] => simp at hall
    | [_, _] => simp at hall
    | [_, _, _] =>
        simp only [List.cons_append, List.nil_append, List.cons.injEq] at hall
        obtain ⟨rfl, rfl, rfl, -⟩ := hall
        rfl
    | _ :: _ :: _ :: t :: ts =>
        simp only [List.cons_append, List.cons.injEq] at hall
        obtain ⟨-, -, -, rfl, -⟩ := hall
        simp at hts
  next => cases hparse

theorem yyparse_rest
    {garbage : ℕ → BitVec 32} {k : ℕ} {started : Bool} {later : List ConfToken}
    {aq aq' : List AuthData} (hlater : ConfToken.newline ∉ later)
    (hparse : yyparse garbage k started later aq = .ok aq') :
    later = [] ∧ aq' = aq := by
  unfold yyparse at hparse
  split at hparse
  next =>
    cases hparse
    exact ⟨rfl, rfl⟩
  next => simp at hlater
  next => simp at hlater
  next => cases hparse

/-- The entry `e` was read from a line. -/
def ReadFrom (line : List Byte) (e : ConfEntry) : Prop :=
  LineScan line e.symbols

theorem ReadFrom.hasLetter {line : List Byte} {e : ConfEntry} (h : ReadFrom line e) :
    hasLetter line = true :=
  (LineScan.hasLetter_iff h).mpr ⟨e.userid, by simp [ConfEntry.symbols]⟩

/-- The entries of an accepted text come from its lines with letters. -/
theorem entries_of_yyparse
    {garbage : ℕ → BitVec 32} {k : ℕ} {started : Bool}
    {lines : List (List Byte)} {tss : List (List ConfToken)}
    (hscan : List.Forall₂ LineScan lines tss) {later : List ConfToken}
    (hlater : ConfToken.newline ∉ later) {aq aq' : List AuthData}
    (hparse : yyparse garbage k started (tokensOfLines tss ++ later) aq = .ok aq') :
    ∃ es, authAddAll garbage k es aq = .ok aq' ∧
      List.Forall₂ ReadFrom (lines.filter hasLetter) es := by
  induction hscan generalizing k started aq with
  | nil =>
      obtain ⟨-, rfl⟩ := yyparse_rest hlater hparse
      exact ⟨[], rfl, .nil⟩
  | @cons line ts lines tss hline _ ih =>
      rw [tokensOfLines_cons, List.append_assoc, List.cons_append] at hparse
      have hts : ConfToken.newline ∉ ts := hline.newline_notMem
      rcases yyparse_line hts hparse with rfl | ⟨e, rfl⟩
      · rw [List.nil_append, yyparse_newline] at hparse
        obtain ⟨es, hadd, hes⟩ := ih hparse
        have hnone : hasLetter line = false := by
          by_contra hletter
          obtain ⟨text, htext⟩ := hline.hasLetter_iff.mp (by simpa using hletter)
          cases htext
        rw [List.filter_cons_of_neg (by simp [hnone])]
        exact ⟨es, hadd, hes⟩
      · rw [← ConfEntry.tokens_eq, yyparse_entry] at hparse
        cases hfirst : authAdd aq e.userid (ipValue e.ip (garbage k))
            (ipValue e.netmask (garbage (k + 1))) with
        | error reason =>
            rw [hfirst] at hparse
            cases hparse
        | ok aq₁ =>
            rw [hfirst] at hparse
            obtain ⟨es, hadd, hes⟩ := ih hparse
            refine ⟨e :: es, ?_, ?_⟩
            · rw [authAddAll, hfirst]
              exact hadd
            · rw [List.filter_cons_of_pos (ReadFrom.hasLetter hline)]
              exact .cons hline hes

/-- The tokens of a line and the entries in it. -/
inductive LineEntries : List ConfToken → List ConfEntry → Prop
  | blank : LineEntries [] []
  | entry (e : ConfEntry) : LineEntries e.symbols [e]

/-- The parser runs the actions of all entries when every line is blank or an
entry. -/
theorem yyparse_of_entries
    {garbage : ℕ → BitVec 32} {k : ℕ} {started : Bool}
    {tss : List (List ConfToken)} {ess : List (List ConfEntry)}
    (hlines : List.Forall₂ LineEntries tss ess)
    (hstarted : started = true ∨ tss ≠ []) (aq : List AuthData) :
    yyparse garbage k started (tokensOfLines tss) aq =
      authAddAll garbage k ess.flatten aq := by
  induction hlines generalizing k started aq with
  | nil =>
      obtain rfl : started = true := by simpa using hstarted
      rfl
  | @cons ts es tss ess hline _ ih =>
      rw [tokensOfLines_cons, List.flatten_cons]
      cases hline with
      | blank =>
          rw [List.nil_append, List.nil_append, yyparse_newline]
          exact ih (.inl rfl) aq
      | entry e =>
          rw [← ConfEntry.tokens_eq, yyparse_entry, List.singleton_append, authAddAll]
          congr 1
          funext aq'
          exact ih (.inl rfl) aq'

/-! ## Lines and stored entries -/

theorem forall₂_trans
    {α β γ : Type*} {R : α → β → Prop} {S : β → γ → Prop}
    {as : List α} {bs : List β} {cs : List γ}
    (hfirst : List.Forall₂ R as bs) (hsecond : List.Forall₂ S bs cs) :
    List.Forall₂ (fun a c => ∃ b, R a b ∧ S b c) as cs := by
  induction hfirst generalizing cs with
  | nil =>
      cases hsecond
      exact .nil
  | cons hab _ ih =>
      cases hsecond with
      | cons hbc hlater => exact .cons ⟨_, hab, hbc⟩ (ih hlater)

theorem forall₂_exists_right
    {α β : Type*} {R : α → β → Prop} {as : List α} {bs : List β}
    (h : List.Forall₂ R as bs) {a : α} (ha : a ∈ as) : ∃ b ∈ bs, R a b := by
  induction h with
  | nil => cases ha
  | @cons a' b' _ _ hab _ ih =>
      rcases List.mem_cons.mp ha with rfl | ha
      · exact ⟨b', List.mem_cons_self, hab⟩
      · obtain ⟨b, hb, hR⟩ := ih ha
        exact ⟨b, List.mem_cons_of_mem _ hb, hR⟩

theorem forall₂_exists_left
    {α β : Type*} {R : α → β → Prop} {as : List α} {bs : List β}
    (h : List.Forall₂ R as bs) {b : β} (hb : b ∈ bs) : ∃ a ∈ as, R a b :=
  forall₂_exists_right h.flip hb

/-- The data was stored for an entry which was read from the line. -/
def StoredFor (garbage : ℕ → BitVec 32) (line : List Byte) (data : AuthData) : Prop :=
  ∃ e, ReadFrom line e ∧ ∃ k, data = ConfEntry.data garbage k e

/-- An accepted text stores one entry for each line with a letter, in order. -/
theorem storedFor_of_yyparse
    {garbage : ℕ → BitVec 32} {text : List Byte} {aq : List AuthData}
    (hparse : yyparse garbage 0 false (confTokens text) [] = .ok aq) :
    List.Forall₂ (StoredFor garbage) ((confLines text).filter hasLetter) aq.reverse := by
  obtain ⟨tss, later, hscan, hlater, htokens⟩ := exists_confTokens text
  rw [htokens] at hparse
  obtain ⟨es, hadd, hread⟩ := entries_of_yyparse hscan hlater hparse
  rw [(authAddAll_eq_ok_iff.mp hadd).2, List.append_nil, List.reverse_reverse]
  exact forall₂_trans hread (ConfEntry.forall₂_datas garbage 0 es)

theorem StoredFor.isUserid
    {garbage : ℕ → BitVec 32} {line : List Byte} {data : AuthData}
    (h : StoredFor garbage line data) : IsUserid data.userid := by
  obtain ⟨e, hread, k, rfl⟩ := h
  exact LineScan.isUserid hread (by simp [ConfEntry.symbols, ConfEntry.data, AuthData.of])

/-! ## Legible lines -/

/-- The scanner agrees with the reader of a legible line. -/
theorem ReadFrom.eq_of_fields
    {line : List Byte} {e : ConfEntry} (h : ReadFrom line e)
    {userid : List Byte} (huserid : IsUserid userid) {ip netmask : BitVec 32}
    {later : List (List Byte)}
    (hfields : fields line = userid :: inetNtoa ip :: inetNtoa netmask :: later) :
    e = ⟨userid, inetNtoa ip, inetNtoa netmask⟩ := by
  have hscan : LineScan line e.symbols := h
  obtain ⟨_, ts₁, hts, hscan₁, hfields₁⟩ := hscan.userid_field huserid hfields
  obtain ⟨_, ts₂, rfl, hscan₂, hfields₂⟩ := hscan₁.ip_field hfields₁
  obtain ⟨_, ts₃, rfl, -, -⟩ := hscan₂.ip_field hfields₂
  simp only [ConfEntry.symbols, List.cons.injEq, ConfToken.userid.injEq,
    ConfToken.ip.injEq] at hts
  obtain ⟨huser, hip, hnetmask, -⟩ := hts
  rw [← huser, ← hip, ← hnetmask]

theorem ipValue_inetNtoa (addr garbage : BitVec 32) :
    ipValue (inetNtoa addr) garbage = addr := by
  rw [ipValue, inetPton_inetNtoa]
  rfl

/-- Where the reader can read the line, the garbage does not matter. -/
theorem ConfEntry.data_of_legible
    (garbage : ℕ → BitVec 32) (k : ℕ) (userid : List Byte) (ip netmask : BitVec 32) :
    ConfEntry.data garbage k ⟨userid, inetNtoa ip, inetNtoa netmask⟩ =
      .of userid ip netmask := by
  simp only [ConfEntry.data, ipValue_inetNtoa]

theorem StoredFor.eq_of_fields
    {garbage : ℕ → BitVec 32} {line : List Byte} {data : AuthData}
    (h : StoredFor garbage line data) {userid : List Byte}
    (huserid : IsUserid userid) {ip netmask : BitVec 32} {later : List (List Byte)}
    (hfields : fields line = userid :: inetNtoa ip :: inetNtoa netmask :: later) :
    data = .of userid ip netmask := by
  obtain ⟨e, hread, k, rfl⟩ := h
  rw [hread.eq_of_fields huserid hfields, ConfEntry.data_of_legible]

/-- The first three fields of the line describe the entry. -/
def Describes (line : List Byte) (data : AuthData) : Prop :=
  ∃ userid ip netmask later,
    fields line = userid :: inetNtoa ip :: inetNtoa netmask :: later ∧
      data = .of userid ip netmask

/-- A line which describes what was read from some line contains a letter. -/
theorem Describes.hasLetter
    {line : List Byte} {data : AuthData} (h : Describes line data)
    (huserid : IsUserid data.userid) : hasLetter line = true := by
  obtain ⟨userid, ip, netmask, later, hfields, rfl⟩ := h
  obtain ⟨ts, hscan⟩ := exists_lineScan line
  obtain ⟨_, _, rfl, -, -⟩ := hscan.userid_field huserid hfields
  exact hscan.hasLetter_iff.mpr ⟨userid, List.mem_cons_self⟩

end DialdTop
