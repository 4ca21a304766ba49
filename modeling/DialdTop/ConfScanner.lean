import DialdTop.DottedQuad
import DialdTop.Scanner

/-!
# Scanner of the configuration file
-/

namespace DialdTop

open Scanner

inductive ConfToken
  | userid (text : List Byte)
  | ip (text : List Byte)
  | newline
  deriving DecidableEq, Repr

/-- The class `[a-zA-z]`, whose second range contains the first. -/
def isLetter (c : Byte) : Bool :=
  (97 ≤ c && c ≤ 122) || (65 ≤ c && c ≤ 122)

/-- The class `[a-zA-z0-9]`. -/
def isUseridChar (c : Byte) : Bool :=
  isLetter c || isDigit c

/-- The class `WS`. -/
def isSeparator (c : Byte) : Bool :=
  c = blank || c = tab || c = 44

def hash : Byte := 35

namespace ConfScanner

def userid : Regex Byte :=
  .cat (.cls isLetter) (.star (.cls isUseridChar))

/-- `[0-9]{1,3}`. -/
def octet : Regex Byte :=
  .cat (.cls isDigit) (.cat (.opt (.cls isDigit)) (.opt (.cls isDigit)))

def point : Regex Byte := .cls (· = dot)

def ip : Regex Byte :=
  .cat octet (.cat point (.cat octet (.cat point (.cat octet (.cat point octet)))))

def comment : Regex Byte :=
  .cat (.cls (· = hash)) (.star (.cls (· ≠ newline)))

def useridRule : Rule Byte ConfToken :=
  ⟨userid, none, fun text => some (.userid text)⟩

def ipRule : Rule Byte ConfToken :=
  ⟨ip, none, fun text => some (.ip text)⟩

/-- `#.*$`. -/
def commentRule : Rule Byte ConfToken :=
  ⟨comment, some (· = newline), fun _ => none⟩

def wsRule : Rule Byte ConfToken :=
  ⟨.cls isSeparator, none, fun _ => none⟩

def newlineRule : Rule Byte ConfToken :=
  ⟨.cls (· = newline), none, fun _ => some .newline⟩

def rules : List (Rule Byte ConfToken) :=
  [useridRule, ipRule, commentRule, wsRule, newlineRule]

theorem rules_progressive : Progressive rules :=
  progressive_of_not_nullable (by decide)

end ConfScanner

/-- The tokens of a configuration text.  Characters which no rule matches go
to the default rule and leave no token. -/
def confTokens (text : List Byte) : List ConfToken :=
  (scan ConfScanner.rules text).getD []

theorem confTokens_eq_iff {text : List Byte} {tokens : List ConfToken} :
    confTokens text = tokens ↔ Scans ConfScanner.rules text tokens [] := by
  obtain ⟨found, hfound⟩ := exists_scans ConfScanner.rules_progressive text
  have hscan := (scan_eq_some_iff ConfScanner.rules_progressive).mpr hfound
  constructor
  · intro h
    rw [confTokens, hscan] at h
    exact h ▸ hfound
  · intro h
    rw [confTokens, (scan_eq_some_iff ConfScanner.rules_progressive).mpr h]
    rfl

example : confTokens (bytes "bob 10.0.0.1,255.0.0.0 # x\n") =
    [.userid (bytes "bob"), .ip (bytes "10.0.0.1"), .ip (bytes "255.0.0.0"),
      .newline] := by
  decide

end DialdTop
