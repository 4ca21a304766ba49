import Mathlib.Data.List.TakeWhile
import Mathlib.Tactic.Common

/-!
# C strings and integers

Memory contents are lists of bytes.  A list is read as a C string: it ends at
its first NUL, or at the end of the list, where a NUL is understood.  The
library functions below are the ones the server calls, in the C locale.
-/

namespace DialdTop

abbrev Byte := UInt8

/-- The bytes of a string constant. -/
def bytes (text : String) : List Byte :=
  text.toList.map fun c => c.toNat.toUInt8

def nul : Byte := 0
def tab : Byte := 9
def newline : Byte := 10
def carriageReturn : Byte := 13
def blank : Byte := 32
def colon : Byte := 58

/-- The arithmetic of `int` modulo 2^32. -/
def wrapInt (value : Int) : Int :=
  value.bmod 4294967296

/-- `INT_MAX`. -/
def intMax : Int := 2147483647

/-- The text which consists of the given lines. -/
def unlines (lines : List (List Byte)) : List Byte :=
  lines.flatMap (· ++ [newline])

/-- The bytes up to the first NUL. -/
def cString (memory : List Byte) : List Byte :=
  memory.takeWhile (· ≠ nul)

def tolower (c : Byte) : Byte :=
  if 65 ≤ c ∧ c ≤ 90 then c + 32 else c

/-- Difference of the first bytes which differ ignoring case; zero when the
two strings agree on their first `n` bytes or up to a common end. -/
def strncasecmp : List Byte → List Byte → ℕ → Int
  | _, _, 0 => 0
  | [], [], _ + 1 => 0
  | [], b :: _, _ + 1 => -(tolower b).toNat
  | a :: _, [], _ + 1 => (tolower a).toNat
  | a :: as, b :: bs, n + 1 =>
      if tolower a ≠ tolower b then (tolower a).toNat - (tolower b).toNat
      else if a = nul then 0
      else strncasecmp as bs n

def strcasecmp : List Byte → List Byte → Int
  | [], [] => 0
  | [], b :: _ => -(tolower b).toNat
  | a :: _, [] => (tolower a).toNat
  | a :: as, b :: bs =>
      if tolower a ≠ tolower b then (tolower a).toNat - (tolower b).toNat
      else if a = nul then 0
      else strcasecmp as bs

/-- The text which `%d` prints for a natural number. -/
def decimal (n : ℕ) : List Byte :=
  (Nat.toDigits 10 n).map fun c => c.toNat.toUInt8

/-- Two strings equal ignoring case. -/
def EqIgnoringCase (a b : List Byte) : Prop :=
  a.map tolower = b.map tolower

instance (a b : List Byte) : Decidable (EqIgnoringCase a b) :=
  inferInstanceAs (Decidable (a.map tolower = b.map tolower))

@[simp] theorem unlines_nil : unlines [] = [] := rfl

@[simp] theorem unlines_cons (line : List Byte) (lines : List (List Byte)) :
    unlines (line :: lines) = line ++ newline :: unlines lines := by
  simp [unlines]

theorem unlines_append (first second : List (List Byte)) :
    unlines (first ++ second) = unlines first ++ unlines second := by
  simp [unlines]

/-- A text consists of lines and a rest without newline. -/
theorem exists_lines_append (text : List Byte) :
    ∃ lines last, newline ∉ last ∧ (∀ line ∈ lines, newline ∉ line) ∧
      text = unlines lines ++ last := by
  induction text with
  | nil => exact ⟨[], [], by simp, by simp, rfl⟩
  | cons c text ih =>
      obtain ⟨lines, last, hlast, hlines, rfl⟩ := ih
      by_cases hc : c = newline
      · subst c
        refine ⟨[] :: lines, last, hlast, ?_, by simp⟩
        simpa using hlines
      · have hc' : ∀ s : List Byte, newline ∉ s → newline ∉ c :: s := by
          intro s hs hmem
          rcases List.mem_cons.mp hmem with h | h
          · exact hc h.symm
          · exact hs h
        cases lines with
        | nil => exact ⟨[], c :: last, hc' last hlast, by simp, rfl⟩
        | cons line lines =>
            refine ⟨(c :: line) :: lines, last, hlast, ?_, by simp⟩
            intro l hl
            rcases List.mem_cons.mp hl with rfl | hl
            · exact hc' line (hlines line (by simp))
            · exact hlines l (List.mem_cons_of_mem _ hl)

theorem nul_notMem_cString (memory : List Byte) : nul ∉ cString memory := by
  intro hmem
  simpa using List.mem_takeWhile_imp hmem

theorem cString_of_notMem {s : List Byte} (h : nul ∉ s) : cString s = s := by
  rw [cString, List.takeWhile_eq_self_iff]
  intro c hc
  simpa using fun heq : c = nul => h (heq ▸ hc)

theorem cString_append {s : List Byte} (hs : nul ∉ s) (rest : List Byte) :
    cString (s ++ rest) = s ++ cString rest := by
  have hfree : ∀ b ∈ s, decide (b ≠ nul) = true := by
    intro b hb
    rw [decide_eq_true_eq]
    intro heq
    subst b
    exact hs hb
  rw [cString, List.takeWhile_append_of_pos hfree]
  rfl

theorem cString_append_nul {s : List Byte} (hs : nul ∉ s) (rest : List Byte) :
    cString (s ++ nul :: rest) = s := by
  rw [cString_append hs]
  simp [cString]

theorem tolower_ne_nul {c : Byte} (hc : c ≠ nul) : tolower c ≠ nul := by
  unfold tolower
  split
  case isTrue hupper =>
    simp only [UInt8.le_iff_toNat_le, UInt8.toNat_ofNat] at hupper
    simp only [nul, ne_eq, ← UInt8.toNat_inj, UInt8.toNat_add, UInt8.toNat_ofNat]
    omega
  case isFalse => exact hc

/-- `strcasecmp` decides equality ignoring case on strings without NUL. -/
theorem strcasecmp_eq_zero_iff
    {a b : List Byte} (ha : nul ∉ a) (hb : nul ∉ b) :
    strcasecmp a b = 0 ↔ EqIgnoringCase a b := by
  unfold EqIgnoringCase
  induction a generalizing b with
  | nil =>
      cases b with
      | nil => simp [strcasecmp]
      | cons y ys =>
          have hy : tolower y ≠ nul := tolower_ne_nul (by aesop)
          simpa [strcasecmp, nul, UInt8.ext_iff, ← UInt8.toNat_inj] using hy
  | cons x xs ih =>
      have hx : x ≠ nul := by aesop
      cases b with
      | nil =>
          have hlow : tolower x ≠ nul := tolower_ne_nul hx
          simpa [strcasecmp, nul, ← UInt8.toNat_inj] using hlow
      | cons y ys =>
          have htail := ih (b := ys) (by aesop) (by aesop)
          by_cases heq : tolower x = tolower y
          · simp [strcasecmp, heq, hx, htail]
          · have hnat : (tolower x).toNat ≠ (tolower y).toNat := by
              simpa [UInt8.toNat_inj] using heq
            simp only [strcasecmp, ne_eq, heq, not_false_eq_true, if_true,
              List.map_cons, List.cons.injEq, false_and, iff_false]
            omega

end DialdTop
