import DialdTop.CString

/-!
# Extraction of the user from an ident reply

The two functions scan memory in place.  They return a pointer into the line,
here the memory from that pointer on, after cutting it with a NUL.
-/

namespace DialdTop

/-- The memory before the first LF, CR or NUL, where a NUL is stored. -/
def cutLine (memory : List Byte) : List Byte :=
  memory.takeWhile fun c => c ≠ newline ∧ c ≠ carriageReturn ∧ c ≠ nul

def cleanUserid (line : List Byte) : List Byte :=
  (cutLine line).dropWhile (· = blank)

/-- Past the next colon, or to the end of the string. -/
def skipField (line : List Byte) : List Byte :=
  match line.dropWhile fun c => c ≠ colon ∧ c ≠ nul with
  | [] => []
  | c :: rest => if c = nul then c :: rest else rest

def reapUserid (line : List Byte) : List Byte :=
  cleanUserid (cutLine (skipField (skipField (skipField line))))

/-- LF, CR or NUL. -/
def EndsLine (c : Byte) : Prop :=
  c = newline ∨ c = carriageReturn ∨ c = nul

instance (c : Byte) : Decidable (EndsLine c) :=
  inferInstanceAs (Decidable (_ ∨ _ ∨ _))

theorem not_endsLine_iff (c : Byte) :
    ¬ EndsLine c ↔ c ≠ newline ∧ c ≠ carriageReturn ∧ c ≠ nul := by
  simp [EndsLine]

theorem cutLine_cons (c : Byte) (chunk : List Byte) :
    cutLine (c :: chunk) = if EndsLine c then [] else c :: cutLine chunk := by
  by_cases hend : EndsLine c
  · have hfound : ¬ (c ≠ newline ∧ c ≠ carriageReturn ∧ c ≠ nul) := by
      rw [← not_endsLine_iff]
      exact not_not_intro hend
    rw [if_pos hend, cutLine, List.takeWhile_cons_of_neg]
    simpa using hfound
  · rw [if_neg hend, cutLine, List.takeWhile_cons_of_pos]
    · rfl
    · simpa [not_endsLine_iff] using hend

end DialdTop
