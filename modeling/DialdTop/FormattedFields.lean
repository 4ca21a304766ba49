import DialdTop.CString

/-!
# Fields of formatted output

The conversion `%s` of the library with its width and precision, and the copying
functions.  A field is at least as wide as its width, and exactly as wide when
the precision is the width.
-/

namespace DialdTop

/-- `%*s`.  A negative width is a flag `-` and its absolute value. -/
def stringField (width : Int) (s : List Byte) : List Byte :=
  let padding := List.replicate (width.natAbs - s.length) blank
  if width < 0 then s ++ padding else padding ++ s

/-- `%*.*s`, for a precision which is not negative. -/
def cutField (width : Int) (precision : ℕ) (s : List Byte) : List Byte :=
  stringField width (s.take precision)

/-- `strncpy(dst, src, n)`, which fills up with NUL but writes none behind `n` bytes. -/
def strncpy (dst src : List Byte) (n : ℕ) : List Byte :=
  src.take n ++ List.replicate (n - src.length) nul ++ dst.drop n

/-! ## Widths -/

@[simp] theorem stringField_length (width : Int) (s : List Byte) :
    (stringField width s).length = max width.natAbs s.length := by
  unfold stringField
  split <;> simp only [List.length_append, List.length_replicate] <;> omega

theorem nul_notMem_stringField {width : Int} {s : List Byte} (hs : nul ∉ s) :
    nul ∉ stringField width s := by
  have hpadding : ∀ n, nul ∉ List.replicate n blank := by
    intro n hmem
    exact absurd (List.eq_of_mem_replicate hmem) (by decide)
  unfold stringField
  split
  · simp [List.mem_append, hs, hpadding]
  · simp [List.mem_append, hs, hpadding]

theorem cutField_length {width : Int} {precision : ℕ} (h : width.natAbs = precision)
    (s : List Byte) : (cutField width precision s).length = precision := by
  rw [cutField, stringField_length, List.length_take, h]
  omega

theorem nul_notMem_cutField {width : Int} {precision : ℕ} {s : List Byte} (hs : nul ∉ s) :
    nul ∉ cutField width precision s :=
  nul_notMem_stringField fun hmem => hs (List.mem_of_mem_take hmem)

/-! ## Copies -/

section Copy

variable {dst src : List Byte} {n : ℕ}

theorem strncpy_length (hn : n ≤ dst.length) : (strncpy dst src n).length = dst.length := by
  simp only [strncpy, List.length_append, List.length_take, List.length_replicate,
    List.length_drop]
  omega

theorem strncpy_of_lt (h : src.length < n) :
    ∃ rest, strncpy dst src n = src ++ nul :: rest := by
  obtain ⟨k, hk⟩ := Nat.exists_eq_add_of_lt h
  have hfill : n - src.length = k + 1 := by omega
  rw [strncpy, List.take_of_length_le (Nat.le_of_lt h), hfill, List.replicate_succ]
  exact ⟨List.replicate k nul ++ dst.drop n, by simp⟩

/-- The copy ends within the memory exactly when the limit leaves room for a NUL
or one stood behind it before. -/
theorem nul_mem_strncpy_iff (hsrc : nul ∉ src) :
    nul ∈ strncpy dst src n ↔ src.length < n ∨ nul ∈ dst.drop n := by
  have htake : nul ∉ src.take n := fun hmem => hsrc (List.mem_of_mem_take hmem)
  simp only [strncpy, List.mem_append, htake, false_or, List.mem_replicate, and_true]
  apply or_congr_left
  omega

end Copy

end DialdTop
