import Mathlib.Data.List.Nodup
import Mathlib.Logic.Function.Basic

/-!
# Hash tables with chains

A table gives to each index the chain of records which hash to it, the newest
one first.  The key of a record is stored in it.  `HashTable.lookup` reads a
table as a finite map, and the two ways in which a table changes, a record put
in front of its chain and a record replaced in place, are one update of that
map when the table is well formed.
-/

namespace HashTable

variable {K R : Type} (index : K → ℕ) (key : R → K)

/-- Every record is in the chain of its key, and no key occurs twice. -/
structure WellFormed (chains : ℕ → List R) : Prop where
  inChain : ∀ h, ∀ r ∈ chains h, index (key r) = h
  distinct : ∀ h, ((chains h).map key).Nodup

variable {index key}

theorem wellFormed_empty : WellFormed index key fun _ => ([] : List R) where
  inChain := by simp
  distinct := by simp

/-- Records with one key are one record at one place. -/
theorem WellFormed.unique
    {chains : ℕ → List R} (hwell : WellFormed index key chains) {h h' i j : ℕ} {r q : R}
    (hr : (chains h)[i]? = some r) (hq : (chains h')[j]? = some q) (hkey : key r = key q) :
    h = h' ∧ i = j := by
  have hh := hwell.inChain h r (List.mem_of_getElem? hr)
  have hh' := hwell.inChain h' q (List.mem_of_getElem? hq)
  have hsame : h = h' := by rw [← hh, ← hh', hkey]
  subst hsame
  refine ⟨rfl, ?_⟩
  have hri : ((chains h).map key)[i]? = some (key r) := by simp [hr]
  have hqj : ((chains h).map key)[j]? = some (key r) := by simp [hq, hkey]
  have hlt : i < ((chains h).map key).length := by
    rw [List.getElem?_eq_some_iff] at hri
    exact hri.1
  exact (List.getElem?_inj hlt (hwell.distinct h)).mp (hri.trans hqj.symm)

variable [DecidableEq K] (index key)

/-- The first record with the key in its chain. -/
def lookup (chains : ℕ → List R) (k : K) : Option R :=
  (chains (index k)).find? fun r => key r = k

/-- Put a record in front of the chain at the given index. -/
def push (chains : ℕ → List R) (h : ℕ) (r : R) : ℕ → List R :=
  Function.update chains h (r :: chains h)

/-- Change the record at a position of a chain in place. -/
def modify (chains : ℕ → List R) (h i : ℕ) (f : R → R) : ℕ → List R :=
  Function.update chains h ((chains h).modify i f)

/-- The position of the first record with the key in its chain. -/
def position (chains : ℕ → List R) (k : K) : Option ℕ :=
  (chains (index k)).findIdx? fun r => key r = k

variable {index key}

theorem lookup_eq_some_iff
    {chains : ℕ → List R} (hwell : WellFormed index key chains) {k : K} {r : R} :
    lookup index key chains k = some r ↔ r ∈ chains (index k) ∧ key r = k := by
  constructor
  · intro h
    exact ⟨List.mem_of_find?_eq_some h, by simpa using List.find?_some h⟩
  · rintro ⟨hmem, hkey⟩
    cases hfound : lookup index key chains k with
    | none =>
        have hnone := List.find?_eq_none.mp hfound r hmem
        simp [hkey] at hnone
    | some q =>
        have hq : q ∈ chains (index k) := List.mem_of_find?_eq_some hfound
        have hqkey : key q = k := by simpa using List.find?_some hfound
        rw [List.inj_on_of_nodup_map (hwell.distinct (index k)) hq hmem (hqkey.trans hkey.symm)]

theorem position_eq_none_iff {chains : ℕ → List R} {k : K} :
    position index key chains k = none ↔ lookup index key chains k = none := by
  simp [position, lookup]

theorem position_eq_some
    {chains : ℕ → List R} {k : K} {i : ℕ} (h : position index key chains k = some i) :
    ∃ r, (chains (index k))[i]? = some r ∧ lookup index key chains k = some r := by
  rw [position, List.findIdx?_eq_some_iff_getElem] at h
  rcases h with ⟨hlt, hkey, hbefore⟩
  refine ⟨(chains (index k))[i], List.getElem?_eq_getElem hlt, ?_⟩
  rw [lookup, List.find?_eq_some_iff_getElem]
  exact ⟨hkey, i, hlt, rfl, by simpa using hbefore⟩

/-! ## Changes -/

theorem WellFormed.push
    {chains : ℕ → List R} (hwell : WellFormed index key chains) {r : R}
    (hnew : lookup index key chains (key r) = none) :
    WellFormed index key (push chains (index (key r)) r) where
  inChain := by
    intro h q hq
    by_cases hh : h = index (key r)
    · subst h
      rw [HashTable.push, Function.update_self, List.mem_cons] at hq
      rcases hq with hq | hq
      · rw [hq]
      · exact hwell.inChain _ q hq
    · rw [HashTable.push, Function.update_of_ne hh] at hq
      exact hwell.inChain h q hq
  distinct := by
    intro h
    by_cases hh : h = index (key r)
    · subst h
      rw [HashTable.push, Function.update_self, List.map_cons, List.nodup_cons]
      refine ⟨?_, hwell.distinct _⟩
      intro hmem
      rcases List.mem_map.mp hmem with ⟨q, hq, hkey⟩
      have hfound := (lookup_eq_some_iff hwell).mpr ⟨hq, hkey⟩
      rw [hnew] at hfound
      cases hfound
    · rw [HashTable.push, Function.update_of_ne hh]
      exact hwell.distinct h

theorem lookup_push {chains : ℕ → List R} (r : R) (k : K) :
    lookup index key (push chains (index (key r)) r) k =
      if k = key r then some r else lookup index key chains k := by
  by_cases hk : k = key r
  · rw [if_pos hk, lookup, push, hk, Function.update_self]
    exact List.find?_cons_of_pos (by simp)
  · rw [if_neg hk, lookup, push]
    by_cases hh : index k = index (key r)
    · rw [hh, Function.update_self, List.find?_cons_of_neg (by simpa using Ne.symm hk), lookup, hh]
    · rw [Function.update_of_ne hh, lookup]

section Modify

variable {chains : ℕ → List R} {i : ℕ} {r : R} {f : R → R}
  (hwell : WellFormed index key chains) (hr : (chains (index (key r)))[i]? = some r)
  (hf : key (f r) = key r)

include hr hf

omit [DecidableEq K] in
theorem map_key_modify :
    ((chains (index (key r))).modify i f).map key = (chains (index (key r))).map key := by
  apply List.ext_getElem?
  intro j
  rw [List.getElem?_map, List.getElem?_map, List.getElem?_modify]
  by_cases hij : i = j
  · subst j
    rw [hr]
    simp [hf]
  · simp [hij]

include hwell

omit [DecidableEq K] in
theorem WellFormed.modify : WellFormed index key (modify chains (index (key r)) i f) := by
  have hkeys := map_key_modify hr hf
  constructor
  · intro h q hq
    by_cases hh : h = index (key r)
    · subst h
      rw [HashTable.modify, Function.update_self] at hq
      have hmem : key q ∈ (chains (index (key r))).map key := by
        rw [← hkeys]
        exact List.mem_map_of_mem hq
      rcases List.mem_map.mp hmem with ⟨q', hq', hkey⟩
      rw [← hkey]
      exact hwell.inChain _ q' hq'
    · rw [HashTable.modify, Function.update_of_ne hh] at hq
      exact hwell.inChain h q hq
  · intro h
    by_cases hh : h = index (key r)
    · subst h
      rw [HashTable.modify, Function.update_self, hkeys]
      exact hwell.distinct _
    · rw [HashTable.modify, Function.update_of_ne hh]
      exact hwell.distinct h

theorem lookup_modify (k : K) :
    lookup index key (modify chains (index (key r)) i f) k =
      if k = key r then some (f r) else lookup index key chains k := by
  have hafter := hwell.modify hr hf
  have hat : ((chains (index (key r))).modify i f)[i]? = some (f r) := by
    rw [List.getElem?_modify_eq, hr]
    rfl
  by_cases hk : k = key r
  · rw [if_pos hk, lookup_eq_some_iff hafter, hk]
    refine ⟨?_, hf⟩
    rw [HashTable.modify, Function.update_self]
    exact List.mem_of_getElem? hat
  · rw [if_neg hk]
    by_cases hh : index k = index (key r)
    · apply Option.ext
      intro q
      rw [lookup_eq_some_iff hafter, lookup_eq_some_iff hwell, hh, HashTable.modify,
        Function.update_self]
      -- A record with another key is at another position.
      refine and_congr_left fun hq => ?_
      rw [List.mem_iff_getElem?, List.mem_iff_getElem?]
      refine exists_congr fun j => ?_
      by_cases hij : i = j
      · subst j
        rw [hat, hr]
        constructor
        · intro heq
          cases heq
          exact absurd (hq.symm.trans hf) hk
        · intro heq
          cases heq
          exact absurd hq.symm hk
      · rw [List.getElem?_modify_ne f _ hij]
    · rw [lookup, HashTable.modify, Function.update_of_ne hh, lookup]

end Modify

theorem modify_modify (chains : ℕ → List R) (h i : ℕ) (f g : R → R) :
    modify (modify chains h i f) h i g = modify chains h i (g ∘ f) := by
  funext h'
  by_cases hh : h' = h
  · subst h'
    simp [modify, List.modify_modify_eq]
  · simp [modify, hh]

theorem modify_push (chains : ℕ → List R) (h : ℕ) (r : R) (f : R → R) :
    modify (push chains h r) h 0 f = push chains h (f r) := by
  funext h'
  by_cases hh : h' = h
  · subst h'
    simp [modify, push]
  · simp [modify, push, hh]

/-- The second table has the record for its key, in the place of the old one if
there was one. -/
inductive Stores (index : K → ℕ) (key : R → K) (chains : ℕ → List R) (r : R) :
    (ℕ → List R) → Prop
  | insert : lookup index key chains (key r) = none →
      Stores index key chains r (push chains (index (key r)) r)
  | replace {i : ℕ} {old : R} : (chains (index (key r)))[i]? = some old → key old = key r →
      Stores index key chains r (modify chains (index (key r)) i fun _ => r)

theorem Stores.wellFormed
    {chains chains' : ℕ → List R} {r : R} (h : Stores index key chains r chains')
    (hwell : WellFormed index key chains) : WellFormed index key chains' := by
  cases h with
  | insert hnew => exact hwell.push hnew
  | replace hold hkey =>
      rw [← hkey] at hold ⊢
      exact hwell.modify hold hkey.symm

theorem Stores.lookup
    {chains chains' : ℕ → List R} {r : R} (h : Stores index key chains r chains')
    (hwell : WellFormed index key chains) (k : K) :
    lookup index key chains' k = if k = key r then some r else lookup index key chains k := by
  cases h with
  | insert hnew => exact lookup_push r k
  | replace hold hkey =>
      rw [← hkey] at hold ⊢
      exact lookup_modify hwell hold hkey.symm k

end HashTable
