import Mathlib.Computability.Language
import Mathlib.Data.List.TakeWhile
import Mathlib.Tactic.Common

/-!
# Regular expressions over character classes

Mathlib's `RegularExpression` has single letters only, so that a class of a
scanner description would become a sum over the alphabet.  Here a class is a
decidable predicate.  The meaning is a Mathlib `Language`; matching is by
derivatives, and `Regex.longest` finds the longest prefix of a text which
belongs to the language.
-/

namespace Scanner

open scoped Computability

inductive Regex (α : Type*)
  | empty
  | epsilon
  | cls (p : α → Bool)
  | cat (r t : Regex α)
  | alt (r t : Regex α)
  | star (r : Regex α)

namespace Regex

variable {α : Type*}

def opt (r : Regex α) : Regex α := .alt r .epsilon

def lang : Regex α → Language α
  | .empty => 0
  | .epsilon => 1
  | .cls p => {w | ∃ c, p c = true ∧ w = [c]}
  | .cat r t => r.lang * t.lang
  | .alt r t => r.lang + t.lang
  | .star r => r.lang∗

/-! ## Words of the language -/

@[simp] theorem mem_lang_empty (w : List α) :
    w ∈ (empty : Regex α).lang ↔ False := Iff.rfl

@[simp] theorem mem_lang_epsilon (w : List α) :
    w ∈ (epsilon : Regex α).lang ↔ w = [] := Iff.rfl

@[simp] theorem mem_lang_cls (p : α → Bool) (w : List α) :
    w ∈ (cls p).lang ↔ ∃ c, p c = true ∧ w = [c] := Iff.rfl

@[simp] theorem mem_lang_cat (r t : Regex α) (w : List α) :
    w ∈ (cat r t).lang ↔ ∃ u ∈ r.lang, ∃ v ∈ t.lang, u ++ v = w :=
  Language.mem_mul

@[simp] theorem mem_lang_alt (r t : Regex α) (w : List α) :
    w ∈ (alt r t).lang ↔ w ∈ r.lang ∨ w ∈ t.lang := Iff.rfl

@[simp] theorem mem_lang_opt (r : Regex α) (w : List α) :
    w ∈ r.opt.lang ↔ w ∈ r.lang ∨ w = [] := Iff.rfl

theorem mem_lang_star_cls (p : α → Bool) (w : List α) :
    w ∈ (star (cls p)).lang ↔ ∀ c ∈ w, p c = true := by
  change w ∈ (cls p).lang∗ ↔ _
  rw [Language.mem_kstar]
  constructor
  · rintro ⟨chunks, rfl, hchunks⟩ c hc
    obtain ⟨chunk, hchunk, hmem⟩ := List.mem_flatten.mp hc
    obtain ⟨d, hd, rfl⟩ := hchunks chunk hchunk
    rw [List.mem_singleton] at hmem
    subst c
    exact hd
  · intro hw
    refine ⟨w.map fun c => [c], (List.flatMap_singleton' w).symm, ?_⟩
    intro chunk hchunk
    obtain ⟨c, hc, rfl⟩ := List.mem_map.mp hchunk
    exact ⟨c, hw c hc, rfl⟩

theorem mem_lang_cls_cat (p : α → Bool) (r : Regex α) (w : List α) :
    w ∈ (cat (cls p) r).lang ↔ ∃ c v, w = c :: v ∧ p c = true ∧ v ∈ r.lang := by
  rw [mem_lang_cat]
  constructor
  · rintro ⟨_, ⟨c, hc, rfl⟩, v, hv, rfl⟩
    exact ⟨c, v, rfl, hc, hv⟩
  · rintro ⟨c, v, rfl, hc, hv⟩
    exact ⟨[c], ⟨c, hc, rfl⟩, v, hv, rfl⟩

/-! ## Derivatives -/

def nullable : Regex α → Bool
  | .empty => false
  | .epsilon => true
  | .cls _ => false
  | .cat r t => r.nullable && t.nullable
  | .alt r t => r.nullable || t.nullable
  | .star _ => true

/-- Concatenation which drops what cannot match. -/
def seq : Regex α → Regex α → Regex α
  | .empty, _ => .empty
  | .epsilon, t => t
  | r, t => .cat r t

def union : Regex α → Regex α → Regex α
  | .empty, t => t
  | r, .empty => r
  | r, t => .alt r t

def deriv (c : α) : Regex α → Regex α
  | .empty => .empty
  | .epsilon => .empty
  | .cls p => if p c then .epsilon else .empty
  | .cat r t =>
      if r.nullable then union (seq (r.deriv c) t) (t.deriv c)
      else seq (r.deriv c) t
  | .alt r t => union (r.deriv c) (t.deriv c)
  | .star r => seq (r.deriv c) (.star r)

@[simp] theorem lang_seq (r t : Regex α) : (seq r t).lang = r.lang * t.lang := by
  cases r <;> simp [seq, lang]

@[simp] theorem lang_union (r t : Regex α) : (union r t).lang = r.lang + t.lang := by
  cases r with
  | empty => exact (zero_add t.lang).symm
  | _ =>
      cases t with
      | empty => exact (add_zero _).symm
      | _ => rfl

theorem nullable_iff (r : Regex α) : r.nullable = true ↔ [] ∈ r.lang := by
  induction r with
  | empty => simp [nullable]
  | epsilon => simp [nullable]
  | cls p => simp [nullable]
  | cat r t ihr iht =>
      simp only [nullable, Bool.and_eq_true, ihr, iht, mem_lang_cat,
        List.append_eq_nil_iff]
      constructor
      · rintro ⟨hr, ht⟩
        exact ⟨[], hr, [], ht, rfl, rfl⟩
      · rintro ⟨u, hu, v, hv, rfl, rfl⟩
        exact ⟨hu, hv⟩
  | alt r t ihr iht => simp [nullable, ihr, iht]
  | star r ih =>
      simp only [nullable, true_iff]
      exact Language.nil_mem_kstar _

private theorem cons_mem_mul
    (L M : Language α) (c : α) (w : List α) :
    c :: w ∈ L * M ↔
      (∃ u v, u ++ v = w ∧ c :: u ∈ L ∧ v ∈ M) ∨ ([] ∈ L ∧ c :: w ∈ M) := by
  rw [Language.mem_mul]
  constructor
  · rintro ⟨u, hu, v, hv, huv⟩
    cases u with
    | nil =>
        rw [List.nil_append] at huv
        subst v
        exact .inr ⟨hu, hv⟩
    | cons d u =>
        obtain ⟨rfl, rfl⟩ := List.cons.inj huv
        exact .inl ⟨u, v, rfl, hu, hv⟩
  · rintro (⟨u, v, rfl, hu, hv⟩ | ⟨hnil, hw⟩)
    · exact ⟨c :: u, hu, v, hv, rfl⟩
    · exact ⟨[], hnil, c :: w, hw, rfl⟩

private theorem cons_mem_kstar (L : Language α) (c : α) (w : List α) :
    c :: w ∈ L∗ ↔ ∃ u v, u ++ v = w ∧ c :: u ∈ L ∧ v ∈ L∗ := by
  constructor
  · rw [Language.mem_kstar_iff_exists_nonempty]
    rintro ⟨chunks, hflat, hchunks⟩
    cases chunks with
    | nil => simp at hflat
    | cons first later =>
        obtain ⟨hfirst, hne⟩ := hchunks first (by simp)
        cases first with
        | nil => exact absurd rfl hne
        | cons d u =>
            rw [List.flatten_cons, List.cons_append, List.cons.injEq] at hflat
            obtain ⟨rfl, rfl⟩ := hflat
            refine ⟨u, later.flatten, rfl, hfirst, Language.join_mem_kstar ?_⟩
            intro chunk hchunk
            exact (hchunks chunk (by simp [hchunk])).1
  · rintro ⟨u, v, rfl, hu, hv⟩
    obtain ⟨chunks, rfl, hchunks⟩ := Language.mem_kstar.mp hv
    have hall : ∀ chunk ∈ (c :: u) :: chunks, chunk ∈ L := by
      intro chunk hchunk
      rcases List.mem_cons.mp hchunk with rfl | hchunk
      · exact hu
      · exact hchunks chunk hchunk
    exact Language.join_mem_kstar hall

theorem mem_lang_deriv (c : α) (r : Regex α) (w : List α) :
    w ∈ (r.deriv c).lang ↔ c :: w ∈ r.lang := by
  induction r generalizing w with
  | empty => simp [deriv]
  | epsilon => simp [deriv]
  | cls p =>
      by_cases hp : p c = true
      · simp [deriv, hp]
      · simp [deriv, hp]
  | cat r t ihr iht =>
      change _ ↔ c :: w ∈ r.lang * t.lang
      have hseq : w ∈ (r.deriv c).lang * t.lang ↔
          ∃ u v, u ++ v = w ∧ c :: u ∈ r.lang ∧ v ∈ t.lang := by
        rw [Language.mem_mul]
        constructor
        · rintro ⟨u, hu, v, hv, huv⟩
          exact ⟨u, v, huv, (ihr u).mp hu, hv⟩
        · rintro ⟨u, v, huv, hu, hv⟩
          exact ⟨u, (ihr u).mpr hu, v, hv, huv⟩
      by_cases hnull : r.nullable = true
      · rw [deriv, if_pos hnull, lang_union, lang_seq, Language.mem_add,
          hseq, iht, cons_mem_mul]
        simp [(nullable_iff r).mp hnull]
      · have hnil : [] ∉ r.lang := fun h => hnull ((nullable_iff r).mpr h)
        rw [deriv, if_neg hnull, lang_seq, hseq, cons_mem_mul]
        simp [hnil]
  | alt r t ihr iht =>
      rw [deriv, lang_union, Language.mem_add, ihr, iht]
      rfl
  | star r ih =>
      change _ ↔ c :: w ∈ r.lang∗
      rw [deriv, lang_seq, cons_mem_kstar, Language.mem_mul]
      constructor
      · rintro ⟨u, hu, v, hv, huv⟩
        exact ⟨u, v, huv, (ih u).mp hu, hv⟩
      · rintro ⟨u, v, huv, hu, hv⟩
        exact ⟨u, (ih u).mpr hu, v, hv, huv⟩

/-! ## The longest match -/

/-- Length of the longest prefix which belongs to the language. -/
def longest : Regex α → List α → Option ℕ
  | r, [] => if r.nullable then some 0 else none
  | r, c :: s =>
      match (r.deriv c).longest s with
      | some n => some (n + 1)
      | none => if r.nullable then some 0 else none

theorem longest_eq_none_iff (r : Regex α) (s : List α) :
    r.longest s = none ↔ ∀ w, w <+: s → w ∉ r.lang := by
  induction s generalizing r with
  | nil =>
      simp [longest, nullable_iff]
  | cons c s ih =>
      have hbegin : (∀ w, w <+: c :: s → w ∉ r.lang) ↔
          [] ∉ r.lang ∧ ∀ w, w <+: s → w ∉ (r.deriv c).lang := by
        simp only [mem_lang_deriv]
        constructor
        · intro h
          exact ⟨h [] (List.nil_prefix), fun w hw => h (c :: w) (by simpa using hw)⟩
        · rintro ⟨hnil, h⟩ w hw
          rcases List.prefix_cons_iff.mp hw with rfl | ⟨v, rfl, hv⟩
          · exact hnil
          · exact h v hv
      rw [hbegin, ← ih, ← nullable_iff]
      cases hrest : (r.deriv c).longest s with
      | none => simp [longest, hrest]
      | some n => simp [longest, hrest]

theorem longest_eq_some_iff (r : Regex α) (s : List α) (n : ℕ) :
    r.longest s = some n ↔
      ∃ w rest, s = w ++ rest ∧ w.length = n ∧ w ∈ r.lang ∧
        ∀ v, v ≠ [] → v <+: rest → w ++ v ∉ r.lang := by
  induction s generalizing r n with
  | nil =>
      simp only [longest]
      constructor
      · intro h
        split at h
        next hnull =>
          cases h
          refine ⟨[], [], rfl, rfl, (nullable_iff r).mp hnull, ?_⟩
          intro v hv hbegin
          exact absurd (List.prefix_nil.mp hbegin) hv
        next => cases h
      · rintro ⟨w, rest, hs, rfl, hw, -⟩
        obtain ⟨rfl, rfl⟩ := List.append_eq_nil_iff.mp hs.symm
        simp [(nullable_iff r).mpr hw]
  | cons c s ih =>
      have hcons : ∀ m, (r.deriv c).longest s = some m ↔
          ∃ w rest, s = w ++ rest ∧ w.length = m ∧ c :: w ∈ r.lang ∧
            ∀ v, v ≠ [] → v <+: rest → c :: w ++ v ∉ r.lang := by
        intro m
        rw [ih]
        simp only [mem_lang_deriv, List.cons_append]
      constructor
      · intro h
        cases hrest : (r.deriv c).longest s with
        | some m =>
            rw [longest, hrest] at h
            cases h
            obtain ⟨w, rest, rfl, rfl, hw, hmax⟩ := (hcons m).mp hrest
            exact ⟨c :: w, rest, rfl, rfl, hw, hmax⟩
        | none =>
            rw [longest, hrest] at h
            simp only at h
            split at h
            next hnull =>
              cases h
              refine ⟨[], c :: s, rfl, rfl, (nullable_iff r).mp hnull, ?_⟩
              intro v hv hbegin
              rcases List.prefix_cons_iff.mp hbegin with rfl | ⟨u, rfl, hu⟩
              · exact absurd rfl hv
              · rw [List.nil_append, ← mem_lang_deriv]
                exact (longest_eq_none_iff _ s).mp hrest u hu
            next => cases h
      · rintro ⟨w, rest, hs, rfl, hw, hmax⟩
        cases w with
        | nil =>
            rw [List.nil_append] at hs
            subst rest
            have hnone : (r.deriv c).longest s = none := by
              rw [longest_eq_none_iff]
              intro u hu
              rw [mem_lang_deriv]
              exact hmax (c :: u) (by simp) (by simpa using hu)
            rw [longest, hnone]
            simp [(nullable_iff r).mpr hw]
        | cons d w =>
            obtain ⟨rfl, rfl⟩ := List.cons.inj hs
            rw [longest, (hcons w.length).mpr ⟨w, rest, rfl, rfl, hw, hmax⟩]
            rfl

/-- The form in which the longest match is used: `w` is read off the text. -/
theorem longest_append
    {r : Regex α} {w rest : List α} (hw : w ∈ r.lang)
    (hmax : ∀ v, v ≠ [] → v <+: rest → w ++ v ∉ r.lang) :
    r.longest (w ++ rest) = some w.length :=
  (longest_eq_some_iff r _ _).mpr ⟨w, rest, rfl, rfl, hw, hmax⟩

/-! ## Matches and character classes -/

/-- Every word begins with a character of the class. -/
def Begins (p : α → Bool) (r : Regex α) : Prop :=
  ∀ w ∈ r.lang, ∃ c v, w = c :: v ∧ p c = true

/-- The words consist of characters of the class. -/
def Within (p : α → Bool) (r : Regex α) : Prop :=
  ∀ w ∈ r.lang, ∀ c ∈ w, p c = true

theorem begins_cls (p : α → Bool) : (cls p).Begins p := by
  intro w hw
  obtain ⟨c, hc, rfl⟩ := hw
  exact ⟨c, [], rfl, hc⟩

theorem Begins.cat {p : α → Bool} {r : Regex α} (h : r.Begins p) (t : Regex α) :
    (cat r t).Begins p := by
  intro w hw
  rw [mem_lang_cat] at hw
  obtain ⟨u, hu, v, -, rfl⟩ := hw
  obtain ⟨c, u, rfl, hc⟩ := h u hu
  exact ⟨c, u ++ v, rfl, hc⟩

theorem Begins.longest_eq_none
    {p : α → Bool} {r : Regex α} (h : r.Begins p) {c : α}
    (hc : p c = false) (s : List α) :
    r.longest (c :: s) = none := by
  rw [longest_eq_none_iff]
  intro w hbegin hw
  obtain ⟨d, v, rfl, hd⟩ := h w hw
  have heq : d = c := (List.cons_prefix_cons.mp hbegin).1
  rw [heq, hc] at hd
  cases hd

theorem within_epsilon (p : α → Bool) : (epsilon : Regex α).Within p := by
  intro w hw
  rw [mem_lang_epsilon] at hw
  simp [hw]

theorem within_cls {p q : α → Bool} (h : ∀ c, q c = true → p c = true) :
    (cls q).Within p := by
  intro w hw
  obtain ⟨c, hc, rfl⟩ := hw
  simpa using h c hc

theorem Within.cat
    {p : α → Bool} {r t : Regex α} (hr : r.Within p) (ht : t.Within p) :
    (cat r t).Within p := by
  intro w hw c hc
  rw [mem_lang_cat] at hw
  obtain ⟨u, hu, v, hv, rfl⟩ := hw
  rcases List.mem_append.mp hc with hc | hc
  · exact hr u hu c hc
  · exact ht v hv c hc

theorem Within.opt {p : α → Bool} {r : Regex α} (hr : r.Within p) :
    r.opt.Within p := by
  intro w hw
  rcases hw with hw | hw
  · exact hr w hw
  · exact within_epsilon p w hw

/-- A match never extends over a character outside the class. -/
theorem Within.longest_append_cons
    {p : α → Bool} {r : Regex α} (h : r.Within p) {d : α}
    (hd : p d = false) (s rest : List α) :
    r.longest (s ++ d :: rest) = r.longest s := by
  induction s generalizing r with
  | nil =>
      have hnone : (r.deriv d).longest rest = none := by
        rw [longest_eq_none_iff]
        intro w _ hw
        rw [mem_lang_deriv] at hw
        have := h _ hw d (by simp)
        rw [hd] at this
        cases this
      rw [List.nil_append]
      simp only [longest, hnone]
  | cons c s ih =>
      have hderiv : (r.deriv c).Within p := by
        intro w hw e he
        rw [mem_lang_deriv] at hw
        exact h _ hw e (by simp [he])
      rw [List.cons_append]
      simp only [longest, ih hderiv]

theorem Within.star {p : α → Bool} {r : Regex α} (h : r.Within p) : (star r).Within p := by
  intro w hw c hc
  change w ∈ r.lang∗ at hw
  rw [Language.mem_kstar] at hw
  rcases hw with ⟨chunks, rfl, hchunks⟩
  rcases List.mem_flatten.mp hc with ⟨chunk, hchunk, hmem⟩
  exact h chunk (hchunks chunk hchunk) c hmem

theorem longest_self {r : Regex α} {w : List α} (hw : w ∈ r.lang) :
    r.longest w = some w.length := by
  have hmax : ∀ v, v ≠ [] → v <+: [] → w ++ v ∉ r.lang := by
    intro v hv hbegin
    exact absurd (List.prefix_nil.mp hbegin) hv
  have hlongest := longest_append hw hmax
  rwa [List.append_nil] at hlongest

/-- A match ends at the first `d` when all words of the language do. -/
theorem longest_of_terminated
    {r : Regex α} {d : α} (hends : ∀ w ∈ r.lang, ∃ u, d ∉ u ∧ w = u ++ [d])
    {u : List α} (hu : u ++ [d] ∈ r.lang) (rest : List α) :
    r.longest (u ++ d :: rest) = some (u.length + 1) := by
  have hmax : ∀ v, v ≠ [] → v <+: rest → u ++ [d] ++ v ∉ r.lang := by
    intro v hv _ hlong
    -- The longer word would contain the first `d` in front of its end.
    obtain ⟨u', hu', heq⟩ := hends _ hlong
    have hbody := congrArg List.dropLast heq
    rw [List.dropLast_append_of_ne_nil hv, List.dropLast_concat] at hbody
    apply hu'
    rw [← hbody]
    simp
  have hlongest := longest_append hu hmax
  rw [List.append_assoc, List.length_append] at hlongest
  exact hlongest

/-- A word of the language in front of a character outside the class. -/
theorem Within.longest_of_mem
    {p : α → Bool} {r : Regex α} (h : r.Within p) {d : α} (hd : p d = false)
    {w : List α} (hw : w ∈ r.lang) (rest : List α) :
    r.longest (w ++ d :: rest) = some w.length := by
  rw [h.longest_append_cons hd, longest_self hw]

theorem longest_le_length {r : Regex α} {s : List α} {n : ℕ} (h : r.longest s = some n) :
    n ≤ s.length := by
  rcases (longest_eq_some_iff r s n).mp h with ⟨w, rest, rfl, rfl, _, _⟩
  simp

theorem Within.longest_le
    {p : α → Bool} {r : Regex α} (h : r.Within p) {d : α} (hd : p d = false)
    {s rest : List α} {n : ℕ} (hn : r.longest (s ++ d :: rest) = some n) :
    n ≤ s.length := by
  rw [h.longest_append_cons hd] at hn
  exact longest_le_length hn

theorem longest_cls {p : α → Bool} {c : α} (hc : p c = true) (s : List α) :
    (cls p).longest (c :: s) = some 1 := by
  have hmax : ∀ v, v ≠ [] → v <+: s → [c] ++ v ∉ (cls p).lang := by
    intro v hv _ hlong
    obtain ⟨d, -, heq⟩ := hlong
    exact hv (List.cons.inj heq).2
  exact longest_append ((mem_lang_cls p [c]).mpr ⟨c, hc, rfl⟩) hmax

/-- One character of a class and then as many as possible of another. -/
theorem longest_cls_star
    {p q : α → Bool} {c : α} (hc : p c = true) (s : List α) :
    (cat (cls p) (star (cls q))).longest (c :: s) =
      some ((s.takeWhile q).length + 1) := by
  have hword : c :: s.takeWhile q ∈ (cat (cls p) (star (cls q))).lang := by
    rw [mem_lang_cls_cat]
    refine ⟨c, s.takeWhile q, rfl, hc, ?_⟩
    rw [mem_lang_star_cls]
    exact fun d hd => List.mem_takeWhile_imp hd
  have hmax : ∀ v, v ≠ [] → v <+: s.dropWhile q →
      c :: s.takeWhile q ++ v ∉ (cat (cls p) (star (cls q))).lang := by
    intro v hv hbegin hlong
    rw [List.cons_append, mem_lang_cls_cat] at hlong
    obtain ⟨_, _, heq, -, hlong⟩ := hlong
    obtain ⟨-, rfl⟩ := List.cons.inj heq
    rw [mem_lang_star_cls] at hlong
    cases v with
    | nil => exact hv rfl
    | cons d v =>
        have hd : q d = true := hlong d (by simp)
        have hhead : (s.dropWhile q).head? = some d := by
          obtain ⟨rest, hrest⟩ := hbegin
          rw [← hrest]
          rfl
        have hstop := List.head?_dropWhile_not q s
        rw [hhead] at hstop
        simp [hd] at hstop
  have h := longest_append hword hmax
  rwa [List.cons_append, List.takeWhile_append_dropWhile] at h

/-! ## Literals -/

/-- The single word `w`. -/
def word [DecidableEq α] : List α → Regex α
  | [] => .epsilon
  | c :: w => .cat (.cls (· = c)) (word w)

theorem mem_lang_word [DecidableEq α] (w v : List α) : v ∈ (word w).lang ↔ v = w := by
  induction w generalizing v with
  | nil => exact mem_lang_epsilon v
  | cons c w ih =>
      rw [word, mem_lang_cls_cat]
      constructor
      · rintro ⟨d, u, rfl, hd, hu⟩
        rw [of_decide_eq_true hd, (ih u).mp hu]
      · rintro rfl
        exact ⟨c, w, rfl, decide_eq_true rfl, (ih w).mpr rfl⟩

theorem longest_word [DecidableEq α] {w s : List α} {n : ℕ} :
    (word w).longest s = some n ↔ w <+: s ∧ n = w.length := by
  rw [longest_eq_some_iff]
  constructor
  · rintro ⟨v, rest, rfl, rfl, hv, _⟩
    rw [(mem_lang_word w v).mp hv]
    exact ⟨List.prefix_append w rest, rfl⟩
  · rintro ⟨⟨rest, rfl⟩, rfl⟩
    refine ⟨w, rest, rfl, rfl, (mem_lang_word w w).mpr rfl, ?_⟩
    intro v hv _ hlong
    rw [mem_lang_word, List.append_right_eq_self] at hlong
    exact hv hlong

/-! ## Texts after which no match can end -/

/-- No character may follow. -/
def isEmpty : Regex α → Bool
  | .empty => true
  | _ => false

/-- The words of the language which begin with the text, without it. -/
def after (r : Regex α) (s : List α) : Regex α :=
  s.foldl (fun r c => r.deriv c) r

theorem longest_empty (s : List α) : (empty : Regex α).longest s = none := by
  rw [longest_eq_none_iff]
  intro w _ hw
  exact hw

/-- A text which is a dead end decides the longest match. -/
theorem longest_of_isEmpty
    {r : Regex α} {s : List α} (h : (r.after s).isEmpty = true) (rest : List α) :
    r.longest (s ++ rest) = r.longest s := by
  induction s generalizing r with
  | nil =>
      cases r with
      | empty => rw [longest_empty, longest_empty]
      | _ => cases h
  | cons c s ih =>
      have hderiv : (r.deriv c).longest (s ++ rest) = (r.deriv c).longest s := ih h
      rw [List.cons_append]
      simp only [longest, hderiv]

/-! ## Occurrences of a character -/

/-- No word of the language has the character. -/
def avoids (c : α) : Regex α → Bool
  | .empty => true
  | .epsilon => true
  | .cls p => !p c
  | .cat r t => r.avoids c && t.avoids c
  | .alt r t => r.avoids c && t.avoids c
  | .star r => r.avoids c

/-- No word of the language has the character twice. -/
def once (c : α) : Regex α → Bool
  | .empty => true
  | .epsilon => true
  | .cls _ => true
  | .cat r t => r.avoids c && t.once c || r.once c && t.avoids c
  | .alt r t => r.once c && t.once c
  | .star r => r.avoids c

theorem once_of_avoids {c : α} {r : Regex α} (h : r.avoids c = true) : r.once c = true := by
  induction r with
  | cat r t ihr iht =>
      simp only [avoids, Bool.and_eq_true] at h
      simp [once, h.1, iht h.2]
  | alt r t ihr iht =>
      simp only [avoids, Bool.and_eq_true] at h
      simp [once, ihr h.1, iht h.2]
  | star r ih => exact h
  | _ => rfl

theorem avoids_seq {c : α} {r t : Regex α} (hr : r.avoids c = true) (ht : t.avoids c = true) :
    (seq r t).avoids c = true := by
  cases r <;> simp_all [seq, avoids]

theorem avoids_union {c : α} {r t : Regex α} (hr : r.avoids c = true) (ht : t.avoids c = true) :
    (union r t).avoids c = true := by
  cases r <;> cases t <;> simp_all [union, avoids]

theorem once_seq {c : α} {r t : Regex α}
    (h : r.avoids c = true ∧ t.once c = true ∨ r.once c = true ∧ t.avoids c = true) :
    (seq r t).once c = true := by
  cases r with
  | empty => rfl
  | epsilon =>
      rcases h with h | h
      · exact h.2
      · exact once_of_avoids h.2
  | _ => simpa [seq, once] using h

theorem once_union {c : α} {r t : Regex α} (hr : r.once c = true) (ht : t.once c = true) :
    (union r t).once c = true := by
  cases r <;> cases t <;> simp_all [union, once]

theorem avoids_deriv {c : α} {r : Regex α} (h : r.avoids c = true) (d : α) :
    (r.deriv d).avoids c = true := by
  induction r with
  | empty => rfl
  | epsilon => rfl
  | cls p =>
      rw [deriv]
      split
      · rfl
      · rfl
  | cat r t ihr iht =>
      simp only [avoids, Bool.and_eq_true] at h
      have hseq := avoids_seq (ihr h.1) h.2
      rw [deriv]
      split
      · exact avoids_union hseq (iht h.2)
      · exact hseq
  | alt r t ihr iht =>
      simp only [avoids, Bool.and_eq_true] at h
      exact avoids_union (ihr h.1) (iht h.2)
  | star r ih => exact avoids_seq (ih h) h

/-- The character leads to a dead end. -/
theorem deriv_of_avoids {c : α} {r : Regex α} (h : r.avoids c = true) : r.deriv c = .empty := by
  induction r with
  | empty => rfl
  | epsilon => rfl
  | cls p =>
      have hp : p c = false := by simpa [avoids] using h
      simp [deriv, hp]
  | cat r t ihr iht =>
      simp only [avoids, Bool.and_eq_true] at h
      simp [deriv, ihr h.1, iht h.2, seq, union]
  | alt r t ihr iht =>
      simp only [avoids, Bool.and_eq_true] at h
      simp [deriv, ihr h.1, iht h.2, union]
  | star r ih => simp [deriv, ih h, seq]

theorem once_deriv {c : α} {r : Regex α} (h : r.once c = true) (d : α) :
    (r.deriv d).once c = true := by
  induction r with
  | empty => rfl
  | epsilon => rfl
  | cls p =>
      rw [deriv]
      split
      · rfl
      · rfl
  | cat r t ihr iht =>
      simp only [once, Bool.or_eq_true, Bool.and_eq_true] at h
      have hseq : (seq (r.deriv d) t).once c = true := by
        rcases h with h | h
        · exact once_seq (Or.inl ⟨avoids_deriv h.1 d, h.2⟩)
        · exact once_seq (Or.inr ⟨ihr h.1, h.2⟩)
      have ht : (t.deriv d).once c = true := by
        rcases h with h | h
        · exact iht h.2
        · exact once_of_avoids (avoids_deriv h.2 d)
      rw [deriv]
      split
      · exact once_union hseq ht
      · exact hseq
  | alt r t ihr iht =>
      simp only [once, Bool.and_eq_true] at h
      exact once_union (ihr h.1) (iht h.2)
  | star r ih => exact once_of_avoids (avoids_seq (avoids_deriv h d) h)

theorem avoids_deriv_of_once {c : α} {r : Regex α} (h : r.once c = true) :
    (r.deriv c).avoids c = true := by
  induction r with
  | empty => rfl
  | epsilon => rfl
  | cls p =>
      rw [deriv]
      split
      · rfl
      · rfl
  | cat r t ihr iht =>
      simp only [once, Bool.or_eq_true, Bool.and_eq_true] at h
      rcases h with ⟨hr, ht⟩ | ⟨hr, ht⟩
      · rw [deriv, deriv_of_avoids hr]
        split
        · exact avoids_union rfl (iht ht)
        · rfl
      · have hseq := avoids_seq (ihr hr) ht
        rw [deriv, deriv_of_avoids ht]
        split
        · exact avoids_union hseq rfl
        · exact hseq
  | alt r t ihr iht =>
      simp only [once, Bool.and_eq_true] at h
      exact avoids_union (ihr h.1) (iht h.2)
  | star r ih => simp [deriv, deriv_of_avoids h, seq, avoids]

theorem after_empty (s : List α) : (empty : Regex α).after s = .empty := by
  induction s with
  | nil => rfl
  | cons c s ih => exact ih

theorem after_of_avoids {c : α} {r : Regex α} (h : r.avoids c = true) {s : List α}
    (hs : c ∈ s) : r.after s = .empty := by
  induction s generalizing r with
  | nil => cases hs
  | cons d s ih =>
      rcases List.mem_cons.mp hs with hd | hs
      · subst d
        change (r.deriv c).after s = .empty
        rw [deriv_of_avoids h, after_empty]
      · exact ih (avoids_deriv h d) hs

/-- A text which has the character twice is a dead end. -/
theorem after_of_once [DecidableEq α] {c : α} {r : Regex α} (h : r.once c = true) {s : List α}
    (hs : 1 < s.count c) : r.after s = .empty := by
  induction s generalizing r with
  | nil => cases hs
  | cons d s ih =>
      change (r.deriv d).after s = .empty
      by_cases hd : d = c
      · subst d
        rw [List.count_cons_self] at hs
        exact after_of_avoids (avoids_deriv_of_once h) (List.count_pos_iff.mp (by omega))
      · rw [List.count_cons_of_ne hd] at hs
        exact ih (once_deriv h d) hs

end Regex

end Scanner
