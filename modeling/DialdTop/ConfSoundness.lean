import DialdTop.ConfText

/-!
# What an accepted configuration stores

The scanner drops characters which no rule matches, its rule for addresses
knows no bound on an octet, and the parser does not look at the result of
`inet_pton`.  So an accepted text stores what is written in it exactly when
every line which leaves a userid starts with a legible entry.
-/

namespace DialdTop

/-- The stored entries, in the order of the text, are those of some of its
lines. -/
def OnlyWritten (text : List Byte) (aq : List AuthData) : Prop :=
  ∃ matched, List.Sublist matched (confLines text) ∧
    List.Forall₂ Describes matched aq.reverse

/-- Every line with a letter in front of the comment starts with a userid and
two dotted quads. -/
def Legible (text : List Byte) : Prop :=
  ∀ line ∈ confLines text, hasLetter line = true →
    ∃ userid ip netmask later, IsUserid userid ∧
      fields line = userid :: inetNtoa ip :: inetNtoa netmask :: later

/-- An accepted text stores only what is written in it exactly when it is
legible, whatever uninitialised memory holds. -/
theorem onlyWritten_iff_legible
    {garbage : ℕ → BitVec 32} {text : List Byte} {aq : List AuthData}
    (hparse : yyparse garbage 0 false (confTokens text) [] = .ok aq) :
    OnlyWritten text aq ↔ Legible text := by
  have hstored := storedFor_of_yyparse hparse
  constructor
  · intro hwritten line hline hletter
    obtain ⟨matched, hsub, hmatch⟩ := hwritten
    -- As many lines match as there are lines with a letter.
    have hmatched : matched = (confLines text).filter hasLetter := by
      have hletters : ∀ line ∈ matched, hasLetter line = true := by
        intro line hline
        obtain ⟨data, hdata, hmatch⟩ := forall₂_exists_right hmatch hline
        obtain ⟨_, _, hfor⟩ := forall₂_exists_left hstored hdata
        exact hmatch.hasLetter hfor.isUserid
      have hfilter : matched.filter hasLetter = matched := List.filter_eq_self.mpr hletters
      have hsub' := hsub.filter hasLetter
      rw [hfilter] at hsub'
      exact hsub'.eq_of_length (hmatch.length_eq.trans hstored.length_eq.symm)
    have hmem : line ∈ matched := by
      rw [hmatched]
      exact List.mem_filter.mpr ⟨hline, hletter⟩
    obtain ⟨data, hdata, userid, ip, netmask, later, hfields, rfl⟩ :=
      forall₂_exists_right hmatch hmem
    obtain ⟨_, _, hfor⟩ := forall₂_exists_left hstored hdata
    exact ⟨userid, ip, netmask, later, hfor.isUserid, hfields⟩
  · intro hlegible
    refine ⟨(confLines text).filter hasLetter, List.filter_sublist, ?_⟩
    have hlines : ∀ line ∈ (confLines text).filter hasLetter, ∀ data,
        StoredFor garbage line data → Describes line data := by
      intro line hline data hfor
      obtain ⟨hline, hletter⟩ := List.mem_filter.mp hline
      obtain ⟨userid, ip, netmask, later, huserid, hfields⟩ :=
        hlegible line hline hletter
      have hdata := hfor.eq_of_fields huserid hfields
      exact ⟨userid, ip, netmask, later, hfields, hdata⟩
    have hboth := (List.forall₂_and_left _ _).mpr ⟨hlines, hstored⟩
    exact hboth.imp fun line data h => h.1 data h.2

def legibleText : List Byte := bytes "# staff\nbob 10.0.0.1,255.255.255.0 # home\n"

theorem onlyWritten_iff_legible_text :
    OnlyWritten legibleText [.of (bytes "bob") 0x0a000001 0xffffff00] ↔
      Legible legibleText := by
  have hparse : yyparse (fun _ => 0) 0 false (confTokens legibleText) [] =
      .ok [.of (bytes "bob") 0x0a000001 0xffffff00] := by decide
  exact onlyWritten_iff_legible hparse

/-- A slip in the last octet of a mask. -/
def slipText : List Byte := bytes "bob 10.0.0.1 255.255.255.256\n"

/-- Where the variable `addr` holds zero, the slip opens the server to `bob`
from every address. -/
theorem not_onlyWritten_slip :
    ¬ ∀ (garbage : ℕ → BitVec 32) (text : List Byte) (aq : List AuthData),
      yyparse garbage 0 false (confTokens text) [] = .ok aq →
        ∀ data ∈ aq, ∃ line ∈ confLines text, Describes line data := by
  intro hclaim
  have hparse : yyparse (fun _ => 0) 0 false (confTokens slipText) [] =
      .ok [⟨bytes "bob", 0, 0⟩] := by decide
  obtain ⟨line, hline, _, _, netmask, later, hfields, _⟩ :=
    hclaim _ _ _ hparse _ List.mem_cons_self
  have hlines : confLines slipText = [bytes "bob 10.0.0.1 255.255.255.256"] := by
    decide
  rw [hlines, List.mem_singleton] at hline
  subst line
  have hslip : fields (bytes "bob 10.0.0.1 255.255.255.256") =
      [bytes "bob", bytes "10.0.0.1", bytes "255.255.255.256"] := by decide
  rw [hslip] at hfields
  simp only [List.cons.injEq] at hfields
  have hpton := inetPton_inetNtoa netmask
  rw [← hfields.2.2.1] at hpton
  have hinvalid : inetPton (bytes "255.255.255.256") = none := by decide
  rw [hinvalid] at hpton
  cases hpton

end DialdTop
