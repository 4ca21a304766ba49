import DialdTop.HostTable

/-!
# Host names of the local domain

`truncate_hostname` looks for the first occurrence of the domain and cuts the
name one byte in front of it, wherever it is and whatever that byte may be.
-/

namespace DialdTop

/-! ## Occurrences -/

/-- The needle stands at this place of the haystack. -/
def OccursAt (haystack needle : List Byte) (i : ℕ) : Prop :=
  ∃ front rest, haystack = front ++ needle ++ rest ∧ front.length = i

theorem OccursAt.le_length {haystack needle : List Byte} {i : ℕ}
    (h : OccursAt haystack needle i) : i ≤ haystack.length := by
  rcases h with ⟨front, rest, rfl, rfl⟩
  simp

theorem occursAt_iff (haystack needle : List Byte) (i : ℕ) :
    OccursAt haystack needle i ↔ i ≤ haystack.length ∧ needle <+: haystack.drop i := by
  constructor
  · intro h
    refine ⟨h.le_length, ?_⟩
    rcases h with ⟨front, rest, rfl, rfl⟩
    rw [List.append_assoc, List.drop_left]
    exact List.prefix_append needle rest
  · rintro ⟨hi, rest, hrest⟩
    refine ⟨haystack.take i, rest, ?_, List.length_take_of_le hi⟩
    rw [List.append_assoc, hrest, List.take_append_drop]

theorem strstr_eq_some_iff (haystack needle : List Byte) (i : ℕ) :
    strstr haystack needle = some i ↔
      OccursAt haystack needle i ∧ ∀ j, OccursAt haystack needle j → i ≤ j := by
  rw [strstr, List.find?_range_eq_some]
  simp only [List.isPrefixOf_iff_prefix, List.mem_range, Bool.not_eq_true', ← Bool.not_eq_true]
  constructor
  · rintro ⟨hbegins, hi, hfirst⟩
    refine ⟨(occursAt_iff _ _ _).mpr ⟨by omega, hbegins⟩, ?_⟩
    intro j hj
    by_contra hless
    exact hfirst j (by omega) ((occursAt_iff _ _ _).mp hj).2
  · rintro ⟨hoccurs, hfirst⟩
    rcases (occursAt_iff _ _ _).mp hoccurs with ⟨hi, hbegins⟩
    refine ⟨hbegins, by omega, ?_⟩
    intro j hj hother
    have hle := hfirst j ((occursAt_iff _ _ _).mpr ⟨by omega, hother⟩)
    omega

theorem strstr_eq_none_iff (haystack needle : List Byte) :
    strstr haystack needle = none ↔ ∀ i, ¬ OccursAt haystack needle i := by
  rw [strstr, List.find?_range_eq_none]
  simp only [List.isPrefixOf_iff_prefix, Bool.not_eq_true', ← Bool.not_eq_true]
  constructor
  · intro h i hi
    exact h i (by have := hi.le_length; omega) ((occursAt_iff _ _ _).mp hi).2
  · intro h i hi hbegins
    exact h i ((occursAt_iff _ _ _).mpr ⟨by omega, hbegins⟩)

/-! ## Local names -/

/-- The host name is the local name, a dot and the domain. -/
def LocalName (hostname mydomain localName : List Byte) : Prop :=
  localName ≠ [] ∧ hostname = localName ++ dot :: mydomain

theorem LocalName.occursAt {hostname mydomain localName : List Byte}
    (h : LocalName hostname mydomain localName) :
    OccursAt hostname mydomain (localName.length + 1) := by
  refine ⟨localName ++ [dot], [], ?_, by simp⟩
  rw [h.2]
  simp

/-- Exactly the names of the domain are truncated, to their local names. -/
def TruncatesLocalNames (mydomain hostname : List Byte) : Prop :=
  (truncateHostname mydomain hostname ≠ hostname ↔
      ∃ localName, LocalName hostname mydomain localName) ∧
    ∀ localName, LocalName hostname mydomain localName →
      truncateHostname mydomain hostname = localName

/-- The domain does not occur in the name, or it begins a name of another domain,
or its first occurrence is the end of a name of the domain. -/
def FirstAtEnd (mydomain hostname : List Byte) : Prop :=
  (∀ i, ¬ OccursAt hostname mydomain i) ∨
    (OccursAt hostname mydomain 0 ∧ ∀ localName, ¬ LocalName hostname mydomain localName) ∨
    ∃ localName, LocalName hostname mydomain localName ∧
      ∀ i, OccursAt hostname mydomain i → localName.length + 1 ≤ i

theorem truncateHostname_eq_self
    {mydomain hostname : List Byte}
    (h : strstr hostname mydomain = none ∨ strstr hostname mydomain = some 0) :
    truncateHostname mydomain hostname = hostname := by
  unfold truncateHostname
  rcases h with h | h
  · rw [h]
  · rw [h]
    rfl

theorem truncateHostname_of_pos
    {mydomain hostname : List Byte} {ptr : ℕ} (h : strstr hostname mydomain = some ptr)
    (hptr : 0 < ptr) : truncateHostname mydomain hostname = hostname.take (ptr - 1) := by
  rw [truncateHostname, h]
  exact if_pos hptr

/-- A name which stays as it is must not be one of the domain. -/
theorem truncatesLocalNames_of_eq_self
    {mydomain hostname : List Byte} (h : truncateHostname mydomain hostname = hostname) :
    TruncatesLocalNames mydomain hostname ↔
      ∀ localName, ¬ LocalName hostname mydomain localName := by
  unfold TruncatesLocalNames
  rw [h]
  constructor
  · rintro ⟨hchanged, _⟩ localName hlocal
    exact hchanged.mpr ⟨localName, hlocal⟩ rfl
  · intro hnone
    refine ⟨iff_of_false (not_not_intro rfl) ?_, ?_⟩
    · rintro ⟨localName, hlocal⟩
      exact hnone localName hlocal
    · intro localName hlocal
      exact absurd hlocal (hnone localName)

/-- The cut is in front of the domain if and only if the first occurrence ends a name
of the domain. -/
theorem truncatesLocalNames_of_pos
    {mydomain hostname : List Byte} {ptr : ℕ} (h : strstr hostname mydomain = some ptr)
    (hptr : 0 < ptr) :
    TruncatesLocalNames mydomain hostname ↔
      ∃ localName, LocalName hostname mydomain localName ∧ localName.length + 1 = ptr := by
  rcases (strstr_eq_some_iff hostname mydomain ptr).mp h with ⟨hoccurs, _⟩
  have hle := hoccurs.le_length
  have hchanged : truncateHostname mydomain hostname ≠ hostname := by
    intro heq
    have hlength := congrArg List.length heq
    rw [truncateHostname_of_pos h hptr, List.length_take] at hlength
    omega
  constructor
  · rintro ⟨hiff, hresult⟩
    rcases hiff.mp hchanged with ⟨localName, hlocal⟩
    refine ⟨localName, hlocal, ?_⟩
    rw [← hresult localName hlocal, truncateHostname_of_pos h hptr, List.length_take]
    omega
  · rintro ⟨localName, hlocal, hlength⟩
    refine ⟨iff_of_true hchanged ⟨localName, hlocal⟩, ?_⟩
    intro other hother
    have hsame : other = localName :=
      List.append_cancel_right (hother.2.symm.trans hlocal.2)
    have htake : ptr - 1 = localName.length := by omega
    rw [hsame, truncateHostname_of_pos h hptr, htake, hlocal.2, List.take_left]

/-- Local names are truncated exactly if and only if the domain occurs first where
they end. -/
theorem truncatesLocalNames_iff (mydomain hostname : List Byte) :
    TruncatesLocalNames mydomain hostname ↔ FirstAtEnd mydomain hostname := by
  cases hptr : strstr hostname mydomain with
  | none =>
      have hnowhere := (strstr_eq_none_iff hostname mydomain).mp hptr
      rw [truncatesLocalNames_of_eq_self (truncateHostname_eq_self (Or.inl hptr))]
      refine iff_of_true ?_ (Or.inl hnowhere)
      intro localName hlocal
      exact hnowhere _ hlocal.occursAt
  | some ptr =>
      rcases (strstr_eq_some_iff hostname mydomain ptr).mp hptr with ⟨hoccurs, hfirst⟩
      rcases Nat.eq_zero_or_pos ptr with hzero | hpos
      · subst hzero
        rw [truncatesLocalNames_of_eq_self (truncateHostname_eq_self (Or.inr hptr))]
        constructor
        · exact fun h => Or.inr (Or.inl ⟨hoccurs, h⟩)
        · rintro (hnowhere | ⟨_, h⟩ | ⟨localName, _, hbehind⟩)
          · exact absurd hoccurs (hnowhere 0)
          · exact h
          · have hle := hbehind 0 hoccurs
            omega
      · rw [truncatesLocalNames_of_pos hptr hpos]
        constructor
        · rintro ⟨localName, hlocal, hlength⟩
          refine Or.inr (Or.inr ⟨localName, hlocal, ?_⟩)
          rw [hlength]
          exact hfirst
        · rintro (hnowhere | ⟨hbegin, _⟩ | ⟨localName, hlocal, hbehind⟩)
          · exact absurd hoccurs (hnowhere ptr)
          · have hle := hfirst 0 hbegin
            omega
          · have hle := hfirst _ hlocal.occursAt
            have hge := hbehind ptr hoccurs
            exact ⟨localName, hlocal, by omega⟩

/-- A name which merely contains the domain, a name which ends in it without a dot,
and a name of the domain which contains it twice. -/
theorem exists_misplaced_cuts :
    truncateHostname (bytes "lan") (bytes "planet.org") = [] ∧
      truncateHostname (bytes "lan") (bytes "xlan") = [] ∧
      truncateHostname (bytes "lan") (bytes "planet.lan") = [] ∧
      LocalName (bytes "planet.lan") (bytes "lan") (bytes "planet") ∧
      ¬ TruncatesLocalNames (bytes "lan") (bytes "planet.org") := by
  refine ⟨by decide, by decide, by decide, ⟨by decide, by decide⟩, ?_⟩
  rintro ⟨hchanged, _⟩
  rcases hchanged.mp (by decide) with ⟨localName, _, hname⟩
  have hlast := congrArg List.getLast? hname
  rw [List.getLast?_append_of_ne_nil _ (List.cons_ne_nil _ _)] at hlast
  exact absurd hlast (by decide)

end DialdTop
