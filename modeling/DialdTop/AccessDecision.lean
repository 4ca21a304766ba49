import DialdTop.Authenticate
import DialdTop.ConfText

/-!
# From the configuration text to the decision

For a well-formed text the lexer, the parser, `auth_add` and `auth_check`
together decide whether some line grants access.
-/

namespace DialdTop

/-- A blank line, a comment, or an entry whose log line fits. -/
def WellFormedLine (line : List Byte) : Prop :=
  newline ∉ line ∧
    (fields line = [] ∨
      ∃ userid ip netmask, IsUserid userid ∧ FitsAuthAdd userid ip netmask ∧
        fields line = [userid, inetNtoa ip, inetNtoa netmask])

/-- The line lists the user for a network which contains the address. -/
def Grants (line userid : List Byte) (addr : BitVec 32) : Prop :=
  ∃ v ip netmask, fields line = [v, inetNtoa ip, inetNtoa netmask] ∧
    EqIgnoringCase v userid ∧ addr &&& netmask = ip &&& netmask

/-- The log lines of `auth_check` fit into their buffer. -/
def FitsAuthCheck (userid : List Byte) (addr : BitVec 32) : Prop :=
  (authCheckLine (some userid) addr ++ verdict false).length < 256

/-! ## The search -/

/-- The entry is one which ends the search with success. -/
def AuthData.admits (userid : List Byte) (addr : BitVec 32) (data : AuthData) : Bool :=
  strcasecmp data.userid userid = 0 ∧ addr &&& data.netmask = data.ip

/-- The first match decides, so the order of the list does not matter. -/
theorem authSearch_some
    (aq : List AuthData) (userid : List Byte) (addr : BitVec 32) :
    authSearch aq (some userid) addr = .ok (aq.any (AuthData.admits userid addr)) := by
  induction aq with
  | nil => rfl
  | cons data aq ih =>
      unfold authSearch
      by_cases hname : strcasecmp data.userid userid = 0
      · by_cases hnet : addr &&& data.netmask = data.ip
        · simp [hname, hnet, AuthData.admits]
        · simp [hname, hnet, ih, AuthData.admits]
      · simp [hname, ih, AuthData.admits]

/-- The log line decides whether the check completes. -/
theorem authCheck_of_search
    {aq : List AuthData} {userid : Option (List Byte)} {addr : BitVec 32}
    {granted : Bool} (hsearch : authSearch aq userid addr = .ok granted) :
    authCheck aq userid addr =
      (intoBuffer 256 (authCheckLine userid addr ++ verdict granted)).map
        fun _ => granted := by
  unfold authCheck
  rw [hsearch]
  by_cases hline : (authCheckLine userid addr).length < 256
  · rw [intoBuffer_of_lt hline]
    simp only [bind, Except.bind]
    cases intoBuffer 256 (authCheckLine userid addr ++ verdict granted) with
    | error reason => rfl
    | ok line => rfl
  · have hlonger : ¬ (authCheckLine userid addr ++ verdict granted).length < 256 := by
      rw [List.length_append]
      omega
    rw [intoBuffer_of_not_lt hline, intoBuffer_of_not_lt hlonger]
    rfl

theorem authCheck_some_eq
    (aq : List AuthData) (userid : List Byte) (addr : BitVec 32) :
    authCheck aq (some userid) addr =
      (intoBuffer 256 (authCheckLine (some userid) addr ++
        verdict (aq.any (AuthData.admits userid addr)))).map
          fun _ => aq.any (AuthData.admits userid addr) :=
  authCheck_of_search (authSearch_some aq userid addr)

theorem authCheck_some
    {userid : List Byte} {addr : BitVec 32} (hfits : FitsAuthCheck userid addr)
    (aq : List AuthData) :
    authCheck aq (some userid) addr =
      .ok (aq.any (AuthData.admits userid addr)) := by
  have hverdict : ∀ granted,
      (authCheckLine (some userid) addr ++ verdict granted).length < 256 := by
    intro granted
    have hlength : (verdict granted).length ≤ (verdict false).length := by
      decide +revert
    rw [FitsAuthCheck, List.length_append] at hfits
    rw [List.length_append]
    omega
  rw [authCheck_some_eq, intoBuffer_of_lt (hverdict _)]
  rfl

/-- Exactly when `auth_check` returns: with a null userid only the empty list
is searched without a crash, and the log line has to fit. -/
def CheckFits (aq : List AuthData) (userid : Option (List Byte)) (addr : BitVec 32) :
    Prop :=
  match userid with
  | none => aq = []
  | some userid =>
      (authCheckLine (some userid) addr ++
        verdict (aq.any (AuthData.admits userid addr))).length < 256

theorem authCheck_completes_iff
    {aq : List AuthData} {userid : Option (List Byte)} {addr : BitVec 32} :
    (∃ granted, authCheck aq userid addr = .ok granted) ↔
      CheckFits aq userid addr := by
  cases userid with
  | none =>
      have haddr := inetNtoa_length_le addr
      have hline : (authCheckLine none addr).length < 200 := by
        have htexts : (bytes "Checking user: ").length = 15 ∧
            (bytes "(null)").length = 6 ∧ (bytes "@").length = 1 ∧
            (bytes " -- ").length = 4 := by decide
        simp only [authCheckLine, Option.getD_none, List.length_append, htexts]
        omega
      unfold CheckFits
      cases aq with
      | nil =>
          have hverdict : (authCheckLine none addr ++ verdict false).length < 256 := by
            have hlength : (verdict false).length = 16 := by decide
            rw [List.length_append]
            omega
          have hcheck : authCheck [] none addr = .ok false := by
            have hsearch : authSearch [] none addr = .ok false := rfl
            rw [authCheck_of_search hsearch, intoBuffer_of_lt hverdict]
            rfl
          exact iff_of_true ⟨false, hcheck⟩ rfl
      | cons data aq =>
          have hshort : (authCheckLine none addr).length < 256 := by omega
          constructor
          · intro h
            obtain ⟨granted, hcheck⟩ := h
            unfold authCheck at hcheck
            rw [intoBuffer_of_lt hshort] at hcheck
            cases hcheck
          · intro h
            cases h
  | some userid =>
      unfold CheckFits
      rw [authCheck_some_eq]
      by_cases hfits : (authCheckLine (some userid) addr ++
          verdict (aq.any (AuthData.admits userid addr))).length < 256
      · rw [intoBuffer_of_lt hfits]
        simp only [hfits, iff_true]
        exact ⟨_, rfl⟩
      · rw [intoBuffer_of_not_lt hfits]
        constructor
        · intro h
          obtain ⟨granted, hcheck⟩ := h
          cases hcheck
        · intro h
          exact absurd h hfits

/-! ## The whole path -/

theorem WellFormedLine.tokens
    {line : List Byte} (h : WellFormedLine line) {ts : List ConfToken}
    (hscan : LineScan line ts) :
    ts = [] ∨ ∃ userid ip netmask, FitsAuthAdd userid ip netmask ∧
      ts = ConfEntry.symbols ⟨userid, inetNtoa ip, inetNtoa netmask⟩ := by
  rcases h.2 with hfields | ⟨userid, ip, netmask, huserid, hfits, hfields⟩
  · exact .inl (hscan.eq_nil_of_fields hfields)
  · right
    obtain ⟨_, ts₁, rfl, hscan₁, hfields₁⟩ := hscan.userid_field huserid hfields
    obtain ⟨_, ts₂, rfl, hscan₂, hfields₂⟩ := hscan₁.ip_field hfields₁
    obtain ⟨_, ts₃, rfl, hscan₃, hfields₃⟩ := hscan₂.ip_field hfields₂
    rw [hscan₃.eq_nil_of_fields hfields₃]
    exact ⟨userid, ip, netmask, hfits, rfl⟩

/-- The entry is legible and its log line fits. -/
def ConfEntry.Sound (e : ConfEntry) : Prop :=
  ∃ userid ip netmask, FitsAuthAdd userid ip netmask ∧
    e = ⟨userid, inetNtoa ip, inetNtoa netmask⟩

theorem authAddAll_of_sound
    (garbage : ℕ → BitVec 32) (k : ℕ) {es : List ConfEntry}
    (hes : ∀ e ∈ es, e.Sound) (aq : List AuthData) :
    ∃ aq', authAddAll garbage k es aq = .ok aq' := by
  induction es generalizing k aq with
  | nil => exact ⟨aq, rfl⟩
  | cons e es ih =>
      obtain ⟨userid, ip, netmask, hfits, rfl⟩ := hes e List.mem_cons_self
      have hadd := authAdd_eq_ok_iff.mpr
        ⟨hfits, (rfl : AuthData.of userid ip netmask :: aq = _)⟩
      obtain ⟨aq', haq'⟩ := ih (k + 2) (fun e he => hes e (List.mem_cons_of_mem _ he))
        (.of userid ip netmask :: aq)
      refine ⟨aq', ?_⟩
      rw [authAddAll, ipValue_inetNtoa, ipValue_inetNtoa, hadd]
      exact haq'

/-- The lexer and the grammar accept every well-formed text. -/
theorem yyparse_wellFormed
    (garbage : ℕ → BitVec 32) {lines : List (List Byte)} (hne : lines ≠ [])
    (hlines : ∀ line ∈ lines, WellFormedLine line) :
    ∃ aq, yyparse garbage 0 false (confTokens (unlines lines)) [] = .ok aq := by
  obtain ⟨tss, hscan⟩ := exists_lineScans lines
  have hentries : ∃ ess, List.Forall₂ LineEntries tss ess ∧
      ∀ e ∈ ess.flatten, e.Sound := by
    clear hne
    induction hscan with
    | nil => exact ⟨[], .nil, by simp⟩
    | @cons line ts lines tss hline _ ih =>
        obtain ⟨ess, hess, hsound⟩ := ih fun l hl => hlines l (List.mem_cons_of_mem _ hl)
        rcases (hlines line List.mem_cons_self).tokens hline with
          rfl | ⟨userid, ip, netmask, hfits, rfl⟩
        · exact ⟨[] :: ess, .cons .blank hess, by simpa using hsound⟩
        · refine ⟨[⟨userid, inetNtoa ip, inetNtoa netmask⟩] :: ess,
            .cons (.entry _) hess, ?_⟩
          intro e he
          rw [List.flatten_cons, List.singleton_append] at he
          rcases List.mem_cons.mp he with rfl | he
          · exact ⟨userid, ip, netmask, hfits, rfl⟩
          · exact hsound e he
  obtain ⟨ess, hess, hsound⟩ := hentries
  have htss : tss ≠ [] := by
    intro heq
    rw [heq, List.forall₂_nil_right_iff] at hscan
    exact hne hscan
  have hnewline : ∀ line ∈ lines, newline ∉ line := fun line hline =>
    (hlines line hline).1
  rw [confTokens_unlines hscan hnewline, yyparse_of_entries hess (.inr htss)]
  exact authAddAll_of_sound garbage 0 hsound []

theorem any_admits_iff
    {garbage : ℕ → BitVec 32} {lines : List (List Byte)}
    (hlines : ∀ line ∈ lines, WellFormedLine line) {aq : List AuthData}
    (hstored : List.Forall₂ (StoredFor garbage) (lines.filter hasLetter) aq.reverse)
    {userid : List Byte} (hnul : nul ∉ userid) (addr : BitVec 32) :
    aq.any (AuthData.admits userid addr) = true ↔
      ∃ line ∈ lines, Grants line userid addr := by
  have hadmits : ∀ v ip netmask, IsUserid v →
      (AuthData.admits userid addr (.of v ip netmask) = true ↔
        EqIgnoringCase v userid ∧ addr &&& netmask = ip &&& netmask) := by
    intro v ip netmask hv
    simp only [AuthData.admits, AuthData.of, decide_eq_true_eq,
      strcasecmp_eq_zero_iff hv.nul_notMem hnul]
  rw [List.any_eq_true]
  constructor
  · intro h
    obtain ⟨data, hdata, hadmit⟩ := h
    obtain ⟨line, hline, hfor⟩ :=
      forall₂_exists_left hstored (List.mem_reverse.mpr hdata)
    obtain ⟨hline, -⟩ := List.mem_filter.mp hline
    rcases (hlines line hline).2 with hfields | ⟨v, ip, netmask, hv, -, hfields⟩
    · obtain ⟨e, hread, -⟩ := hfor
      exact absurd (LineScan.eq_nil_of_fields hread hfields) (List.cons_ne_nil _ _)
    · rw [hfor.eq_of_fields hv hfields, hadmits v ip netmask hv] at hadmit
      exact ⟨line, hline, v, ip, netmask, hfields, hadmit⟩
  · intro h
    obtain ⟨line, hline, v, ip, netmask, hfields, hgrant⟩ := h
    have hv : IsUserid v := by
      rcases (hlines line hline).2 with hnone | ⟨v', _, _, hv', -, hfields'⟩
      · rw [hnone] at hfields
        cases hfields
      · rw [hfields', List.cons.injEq] at hfields
        exact hfields.1 ▸ hv'
    have hletter : hasLetter line = true :=
      Describes.hasLetter ⟨v, ip, netmask, [], hfields, rfl⟩ hv
    obtain ⟨data, hdata, hfor⟩ :=
      forall₂_exists_right hstored (List.mem_filter.mpr ⟨hline, hletter⟩)
    refine ⟨data, List.mem_reverse.mp hdata, ?_⟩
    rw [hfor.eq_of_fields hv hfields, hadmits v ip netmask hv]
    exact hgrant

/-- The decision for a well-formed text. -/
theorem authCheck_of_text
    (garbage : ℕ → BitVec 32) {lines : List (List Byte)} (hne : lines ≠ [])
    (hlines : ∀ line ∈ lines, WellFormedLine line) :
    ∃ aq, yyparse garbage 0 false (confTokens (unlines lines)) [] = .ok aq ∧
      ∀ userid addr, nul ∉ userid → FitsAuthCheck userid addr →
        ∃ granted, authCheck aq (some userid) addr = .ok granted ∧
          (granted = true ↔ ∃ line ∈ lines, Grants line userid addr) ∧
          ∀ (garbage' : ℕ → BitVec 32) (lines' : List (List Byte)) (aq' : List AuthData),
            lines'.Perm lines →
              yyparse garbage' 0 false (confTokens (unlines lines')) [] = .ok aq' →
                authCheck aq' (some userid) addr = .ok granted := by
  have hdecision : ∀ (garbage : ℕ → BitVec 32) (lines : List (List Byte))
      (aq : List AuthData), (∀ line ∈ lines, WellFormedLine line) →
      yyparse garbage 0 false (confTokens (unlines lines)) [] = .ok aq →
      ∀ userid addr, nul ∉ userid →
        (aq.any (AuthData.admits userid addr) = true ↔
          ∃ line ∈ lines, Grants line userid addr) := by
    intro garbage lines aq hlines hparse userid addr hnul
    have hstored := storedFor_of_yyparse hparse
    rw [confLines_unlines_nil fun line hline => (hlines line hline).1] at hstored
    exact any_admits_iff hlines hstored hnul addr
  obtain ⟨aq, hparse⟩ := yyparse_wellFormed garbage hne hlines
  refine ⟨aq, hparse, ?_⟩
  intro userid addr hnul hfits
  have hgranted := hdecision garbage lines aq hlines hparse userid addr hnul
  refine ⟨_, authCheck_some hfits aq, hgranted, ?_⟩
  intro garbage' lines' aq' hperm hparse'
  have hlines' : ∀ line ∈ lines', WellFormedLine line := fun line hline =>
    hlines line (hperm.mem_iff.mp hline)
  have hgranted' := hdecision garbage' lines' aq' hlines' hparse' userid addr hnul
  have hsame : aq'.any (AuthData.admits userid addr) =
      aq.any (AuthData.admits userid addr) := by
    rw [Bool.eq_iff_iff, hgranted, hgranted']
    simp only [hperm.mem_iff]
  rw [authCheck_some hfits aq', hsame]

def staffLines : List (List Byte) :=
  [bytes "# staff", bytes "", bytes "bob\t10.0.0.1, 255.255.255.0 # home"]

theorem staffLines_wellFormed : ∀ line ∈ staffLines, WellFormedLine line := by
  have hchars : ∀ d ∈ [111, 98], isUseridChar d = true := by
    intro d hd
    rw [List.mem_cons, List.mem_singleton] at hd
    rcases hd with hd | hd
    · subst d
      decide
    · subst d
      decide
  have hbob : IsUserid (bytes "bob") :=
    (isUserid_iff _).mpr ⟨98, [111, 98], by decide, by decide, hchars⟩
  intro line hline
  simp only [staffLines, List.mem_cons, List.not_mem_nil, or_false] at hline
  rcases hline with rfl | rfl | rfl
  · exact ⟨by decide, .inl (by decide)⟩
  · exact ⟨by decide, .inl (by decide)⟩
  · exact ⟨by decide, .inr ⟨bytes "bob", 0x0a000001, 0xffffff00, hbob,
      by decide, by decide⟩⟩

theorem authCheck_of_text_staff :
    ∃ aq, yyparse (fun _ => 0) 0 false (confTokens (unlines staffLines)) [] = .ok aq ∧
      authCheck aq (some (bytes "BOB")) 0x0a0000ff = .ok true := by
  have hgrants : Grants (bytes "bob\t10.0.0.1, 255.255.255.0 # home") (bytes "BOB")
      0x0a0000ff :=
    ⟨bytes "bob", 0x0a000001, 0xffffff00, by decide, by decide, by decide⟩
  obtain ⟨aq, hparse, hdecision⟩ :=
    authCheck_of_text (fun _ => 0) (by decide) staffLines_wellFormed
  have hfits : FitsAuthCheck (bytes "BOB") 0x0a0000ff := by
    unfold FitsAuthCheck
    decide
  obtain ⟨granted, hcheck, hiff, -⟩ := hdecision (bytes "BOB") 0x0a0000ff (by decide) hfits
  have hgranted : granted = true := hiff.mpr ⟨_, by simp [staffLines], hgrants⟩
  rw [hgranted] at hcheck
  exact ⟨aq, hparse, hcheck⟩

end DialdTop
