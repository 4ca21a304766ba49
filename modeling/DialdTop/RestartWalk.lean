import Mathlib.Data.List.Nodup
import Mathlib.Data.List.Count
import Mathlib.Data.List.Perm.Subperm

/-!
# Walks which restart after a failure

A walk visits the members of a list in order.  After a success it goes on with
the next member; a member which fails is removed, and the walk restarts at the
head of the list.  A budget bounds it: a success costs one unit and a failure
two.  This is the shape of a loop which counts its rounds against a bound and
decrements the bound with every removal.

When the budget is the length of the list, the theorems below say exactly when
every sound member is visited exactly once: by the outcomes of the visits, and
for members which are broken from the beginning by their places in the list.
-/

namespace RestartWalk

variable {α : Type}

/-- `Walk budget front rest visits`: with `front` already passed and `rest`
ahead, the walk makes these visits, each with its success. -/
inductive Walk : ℕ → List α → List α → List (α × Bool) → Prop
  | spent {front rest : List α} : Walk 0 front rest []
  | finished {budget : ℕ} {front : List α} : Walk budget front [] []
  | success {budget : ℕ} {front rest : List α} {x : α} {visits : List (α × Bool)} :
      Walk budget (front ++ [x]) rest visits →
        Walk (budget + 1) front (x :: rest) ((x, true) :: visits)
  | failure {budget : ℕ} {front rest : List α} {x : α} {visits : List (α × Bool)} :
      Walk (budget - 1) [] (front ++ rest) visits →
        Walk (budget + 1) front (x :: rest) ((x, false) :: visits)

theorem Walk.visits_of_spent
    {front rest : List α} {visits : List (α × Bool)} (hwalk : Walk 0 front rest visits) :
    visits = [] := by
  cases hwalk with
  | spent => rfl
  | finished => rfl

theorem Walk.visits_of_finished
    {budget : ℕ} {front : List α} {visits : List (α × Bool)}
    (hwalk : Walk budget front [] visits) : visits = [] := by
  cases hwalk with
  | spent => rfl
  | finished => rfl

theorem Walk.mem
    {budget : ℕ} {front rest : List α} {visits : List (α × Bool)}
    (hwalk : Walk budget front rest visits) {visit : α × Bool} (hvisit : visit ∈ visits) :
    visit.1 ∈ front ++ rest := by
  induction hwalk with
  | spent => cases hvisit
  | finished => cases hvisit
  | success _ ih =>
      rcases List.mem_cons.mp hvisit with hvisit | hvisit
      · simp [hvisit]
      · simpa using ih hvisit
  | failure _ ih =>
      rcases List.mem_cons.mp hvisit with hvisit | hvisit
      · simp [hvisit]
      · have hmem := ih hvisit
        simp only [List.nil_append, List.mem_append] at hmem
        rcases hmem with hmem | hmem
        · simp [hmem]
        · simp [hmem]

/-! ## The outcomes -/

def failures (visits : List (α × Bool)) : ℕ :=
  visits.countP fun visit => !visit.2

/-- A visit takes place only if the visits before it leave something of the
budget. -/
theorem Walk.budget_bound
    {budget : ℕ} {front rest : List α} {visits before after : List (α × Bool)}
    {visit : α × Bool} (hwalk : Walk budget front rest visits)
    (hvisits : visits = before ++ visit :: after) :
    before.length + failures before < budget := by
  induction hwalk generalizing before with
  | spent => simp at hvisits
  | finished => simp at hvisits
  | success _ ih =>
      cases before with
      | nil => simp [failures]
      | cons first before =>
          rw [List.cons_append, List.cons.injEq] at hvisits
          have hrest := ih hvisits.2
          rw [← hvisits.1]
          simp only [failures, List.length_cons, List.countP_cons] at hrest ⊢
          simp
          omega
  | failure _ ih =>
      cases before with
      | nil => simp [failures]
      | cons first before =>
          rw [List.cons_append, List.cons.injEq] at hvisits
          have hrest := ih hvisits.2
          rw [← hvisits.1]
          simp only [failures, List.length_cons, List.countP_cons] at hrest ⊢
          simp
          omega

/-- As long as only the last member may fail, the members are visited in
order. -/
theorem Walk.visits_in_order
    {budget : ℕ} {front rest : List α} {visits : List (α × Bool)}
    (hwalk : Walk budget front rest visits) (hbudget : budget = rest.length)
    (hgood : ∀ visit ∈ visits.take (rest.length - 1), visit.2 = true) :
    visits.map Prod.fst = rest := by
  induction hwalk with
  | spent =>
      rw [eq_comm, List.length_eq_zero_iff] at hbudget
      rw [hbudget]
      rfl
  | finished => rfl
  | @success budget front rest x visits _ ih =>
      have hrest : budget = rest.length := by simpa using hbudget
      rw [List.map_cons, ih hrest]
      intro visit hvisit
      apply hgood
      cases rest with
      | nil => simp at hvisit
      | cons y rest =>
          rw [List.length_cons, List.length_cons, Nat.add_sub_cancel,
            List.take_succ_cons]
          exact List.mem_cons_of_mem _ hvisit
  | @failure budget front rest x visits hrest _ =>
      cases rest with
      | nil =>
          have hzero : budget = 0 := by simpa using hbudget
          subst budget
          rw [hrest.visits_of_spent]
          rfl
      | cons y rest => simp at hgood

theorem count_eq_one_of_in_order [DecidableEq α]
    {members : List α} {visits : List (α × Bool)} (hnodup : members.Nodup)
    (horder : visits.map Prod.fst = members) {x : α} (hx : x ∈ members)
    (hsound : (x, false) ∉ visits) : visits.count (x, true) = 1 := by
  have hdistinct : visits.Nodup := by
    rw [← horder] at hnodup
    exact hnodup.of_map _
  rw [List.count_eq_one_of_mem hdistinct]
  rw [← horder, List.mem_map] at hx
  rcases hx with ⟨visit, hvisit, hfst⟩
  rcases visit with ⟨y, success⟩
  subst hfst
  cases success with
  | true => exact hvisit
  | false => exact absurd hvisit hsound

/-- If every member is visited, the visits are at least as many. -/
theorem length_le_of_once [DecidableEq α]
    {members : List α} {visits : List (α × Bool)} (hnodup : members.Nodup)
    (honce : ∀ x ∈ members, (x, false) ∉ visits → visits.count (x, true) = 1) :
    members.length ≤ visits.length := by
  have hsubset : members ⊆ visits.map Prod.fst := by
    intro x hx
    rw [List.mem_map]
    by_cases hfailed : (x, false) ∈ visits
    · exact ⟨(x, false), hfailed, rfl⟩
    · have hcount := honce x hx hfailed
      exact ⟨(x, true), List.count_pos_iff.mp (by omega), rfl⟩
  have hlength := (List.subperm_of_subset hnodup hsubset).length_le
  rwa [List.length_map] at hlength

/-- Every member without a failure is visited exactly once if and only if no
visit but possibly the last one fails. -/
theorem Walk.once_iff [DecidableEq α]
    {members : List α} {visits : List (α × Bool)} (hnodup : members.Nodup)
    (hwalk : Walk members.length [] members visits) :
    (∀ x ∈ members, (x, false) ∉ visits → visits.count (x, true) = 1) ↔
      ∀ visit ∈ visits.take (members.length - 1), visit.2 = true := by
  constructor
  · intro honce
    have hlength := length_le_of_once hnodup honce
    rcases List.eq_nil_or_concat visits with hnil | ⟨before, last, hvisits⟩
    · simp [hnil]
    · rw [List.concat_eq_append] at hvisits
      have hbound := hwalk.budget_bound hvisits
      have hcount : visits.length = before.length + 1 := by
        rw [hvisits, List.length_append, List.length_singleton]
      have hfailures : failures before = 0 := by
        omega
      intro visit hvisit
      have hmem : visit ∈ before := by
        rw [hvisits, List.take_append_of_le_length (by omega)] at hvisit
        exact List.mem_of_mem_take hvisit
      rw [failures, List.countP_eq_zero] at hfailures
      simpa using hfailures visit hmem
  · intro hgood x hx hsound
    have horder := hwalk.visits_in_order rfl hgood
    exact count_eq_one_of_in_order hnodup horder hx hsound

/-! ## Broken members -/

section Broken

variable {broken : α → Prop}

/-- The outcomes of the visits are those of the members. -/
def Reflects (broken : α → Prop) (visits : List (α × Bool)) : Prop :=
  ∀ visit ∈ visits, visit.2 = true ↔ ¬ broken visit.1

theorem Reflects.tail {visit : α × Bool} {visits : List (α × Bool)}
    (hreflects : Reflects broken (visit :: visits)) : Reflects broken visits :=
  fun other hother => hreflects other (List.mem_cons_of_mem visit hother)

/-- Broken members at the head are removed one after the other, for two units
of the budget each. -/
theorem Walk.broken_head [DecidableEq α]
    {budget : ℕ} {head rest : List α} {visits : List (α × Bool)}
    (hhead : ∀ x ∈ head, broken x) (hreflects : Reflects broken visits)
    (hwalk : Walk budget [] (head ++ rest) visits) :
    ∃ later, Walk (budget - 2 * head.length) [] rest later ∧ Reflects broken later ∧
      ∀ x, ¬ broken x → visits.count (x, true) = later.count (x, true) := by
  induction head generalizing budget visits with
  | nil => exact ⟨visits, hwalk, hreflects, fun _ _ => rfl⟩
  | cons y head ih =>
      cases hwalk with
      | spent =>
          refine ⟨[], ?_, hreflects, fun _ _ => rfl⟩
          rw [Nat.zero_sub]
          exact .spent
      | success _ =>
          have hsound := (hreflects _ List.mem_cons_self).mp rfl
          exact absurd (hhead y List.mem_cons_self) hsound
      | @failure budget _ _ _ visits hwalk =>
          have hhead' : ∀ x ∈ head, broken x := fun x hx =>
            hhead x (List.mem_cons_of_mem y hx)
          rcases ih hhead' hreflects.tail hwalk with ⟨later, hlater, hreflects', hcount⟩
          refine ⟨later, ?_, hreflects', ?_⟩
          · have hbudget : budget + 1 - 2 * (y :: head).length =
                budget - 1 - 2 * head.length := by
              rw [List.length_cons]
              omega
            rw [hbudget]
            exact hlater
          · intro x hx
            rw [← hcount x hx, List.count_cons_of_ne]
            simp

/-- Sound members are visited in order, for one unit each. -/
theorem Walk.sound_stretch
    {budget : ℕ} {front stretch rest : List α} {visits : List (α × Bool)}
    (hstretch : ∀ x ∈ stretch, ¬ broken x) (hreflects : Reflects broken visits)
    (hwalk : Walk budget front (stretch ++ rest) visits) :
    ∃ later, Walk (budget - stretch.length) (front ++ stretch) rest later ∧
      Reflects broken later ∧
        visits = (stretch.take budget).map (·, true) ++ later := by
  induction stretch generalizing budget front visits with
  | nil => exact ⟨visits, by simpa using hwalk, hreflects, by simp⟩
  | cons y stretch ih =>
      cases hwalk with
      | spent => exact ⟨[], by simpa using .spent, hreflects, by simp⟩
      | @success budget _ _ _ visits hwalk =>
          have hstretch' : ∀ x ∈ stretch, ¬ broken x := fun x hx =>
            hstretch x (List.mem_cons_of_mem y hx)
          rcases ih hstretch' hreflects.tail hwalk with
            ⟨later, hlater, hreflects', hvisits⟩
          refine ⟨later, ?_, hreflects', ?_⟩
          · simpa using hlater
          · rw [hvisits]
            simp
      | failure _ =>
          have hsound := hstretch y List.mem_cons_self
          have hfailed := (hreflects _ List.mem_cons_self).mpr hsound
          cases hfailed

/-- Between broken members at the head and at the tail, all members are sound,
and the two groups are nearly of one size. -/
def Sandwiched (broken : α → Prop) (members : List α) : Prop :=
  (∀ x ∈ members, broken x) ∨
    ∃ head middle tail, members = head ++ (middle ++ tail) ∧
      (∀ x ∈ head, broken x) ∧ (∀ x ∈ middle, ¬ broken x) ∧ (∀ x ∈ tail, broken x) ∧
        head.length ≤ tail.length ∧ tail.length ≤ head.length + 2

theorem exists_stretch (p : α → Prop) (members : List α) :
    ∃ front rest, members = front ++ rest ∧ (∀ x ∈ front, p x) ∧
      (rest = [] ∨ ∃ y later, rest = y :: later ∧ ¬ p y) := by
  induction members with
  | nil => exact ⟨[], [], rfl, by simp, Or.inl rfl⟩
  | cons x members ih =>
      by_cases hx : p x
      · rcases ih with ⟨front, rest, hmembers, hfront, hrest⟩
        refine ⟨x :: front, rest, by rw [hmembers, List.cons_append], ?_, hrest⟩
        intro y hy
        rcases List.mem_cons.mp hy with hy | hy
        · rw [hy]
          exact hx
        · exact hfront y hy
      · exact ⟨[], x :: members, rfl, by simp, Or.inr ⟨x, members, rfl, hx⟩⟩

/-- With at most two units left, a broken member ends the walk. -/
theorem Walk.silent_of_broken [DecidableEq α]
    {budget : ℕ} {front : List α} {y : α} {rest : List α} {visits : List (α × Bool)}
    (hy : broken y) (hbudget : budget ≤ 2) (hreflects : Reflects broken visits)
    (hwalk : Walk budget front (y :: rest) visits) (x : α) :
    visits.count (x, true) = 0 := by
  cases hwalk with
  | spent => rfl
  | success _ => exact absurd hy ((hreflects _ List.mem_cons_self).mp rfl)
  | @failure budget _ _ _ visits hwalk =>
      have hzero : budget - 1 = 0 := by omega
      rw [hzero] at hwalk
      rw [hwalk.visits_of_spent]
      simp

/-- With more left, the walk comes back to the sound member at its head. -/
theorem Walk.restarts_at_sound
    {budget : ℕ} {front rest : List α} {u y : α} {visits : List (α × Bool)}
    (hy : broken y) (hu : ¬ broken u) (hbudget : ¬ budget ≤ 2)
    (hreflects : Reflects broken visits)
    (hwalk : Walk budget (u :: front) (y :: rest) visits) : (u, true) ∈ visits := by
  cases hwalk with
  | spent => omega
  | success _ => exact absurd hy ((hreflects _ List.mem_cons_self).mp rfl)
  | failure hwalk =>
      generalize hleft : _ - 1 = left at hwalk
      cases hwalk with
      | spent => omega
      | success _ => exact List.mem_cons_of_mem _ List.mem_cons_self
      | failure _ =>
          have hfailed := (hreflects.tail _ List.mem_cons_self).mpr hu
          cases hfailed

theorem count_map_true [DecidableEq α] {stretch : List α} (hnodup : stretch.Nodup)
    (x : α) : (stretch.map (·, true)).count (x, true) = if x ∈ stretch then 1 else 0 := by
  have hinjective : Function.Injective fun y : α => (y, true) := by
    intro y z hyz
    exact congrArg Prod.fst hyz
  rw [List.count_map_of_injective _ _ hinjective, List.Nodup.count hnodup]

/-- What is left of a walk after the broken members at the head and the sound
stretch behind them. -/
theorem Walk.after_stretch [DecidableEq α]
    {head middle tail : List α} {visits : List (α × Bool)} (hmiddleNodup : middle.Nodup)
    (hhead : ∀ x ∈ head, broken x) (hmiddle : ∀ x ∈ middle, ¬ broken x)
    (hreflects : Reflects broken visits)
    (hwalk : Walk (head ++ (middle ++ tail)).length [] (head ++ (middle ++ tail)) visits) :
    ∃ later, Walk (tail.length - head.length) middle tail later ∧
      Reflects broken later ∧ ∀ x, ¬ broken x → visits.count (x, true) =
        (if x ∈ middle.take (middle.length + tail.length - head.length) then 1 else 0) +
          later.count (x, true) := by
  rcases hwalk.broken_head hhead hreflects with ⟨second, hsecond, hreflects₂, hcount⟩
  rcases hsecond.sound_stretch hmiddle hreflects₂ with ⟨later, hlater, hreflects₃, hvisits⟩
  have hbudget : (head ++ (middle ++ tail)).length - 2 * head.length =
      middle.length + tail.length - head.length := by
    rw [List.length_append, List.length_append]
    omega
  rw [hbudget] at hlater hvisits
  refine ⟨later, ?_, hreflects₃, ?_⟩
  · have hleft : middle.length + tail.length - head.length - middle.length =
        tail.length - head.length := by
      omega
    rw [hleft] at hlater
    exact hlater
  · intro x hx
    rw [hcount x hx, hvisits, List.count_append,
      count_map_true (hmiddleNodup.sublist (List.take_sublist _ _))]

theorem Walk.sound_once_of_sandwiched [DecidableEq α]
    {members : List α} {visits : List (α × Bool)} (hnodup : members.Nodup)
    (hreflects : Reflects broken visits)
    (hwalk : Walk members.length [] members visits)
    (hsandwiched : Sandwiched broken members) :
    ∀ x ∈ members, ¬ broken x → visits.count (x, true) = 1 := by
  intro x hx hsound
  rcases hsandwiched with hall | ⟨head, middle, tail, hmembers, hhead, hmiddle, htail, hle, hge⟩
  · exact absurd (hall x hx) hsound
  subst members
  have hxmiddle : x ∈ middle := by
    rw [List.mem_append, List.mem_append] at hx
    rcases hx with hx | hx | hx
    · exact absurd (hhead x hx) hsound
    · exact hx
    · exact absurd (htail x hx) hsound
  have hmiddleNodup : middle.Nodup := hnodup.of_append_right.of_append_left
  rcases hwalk.after_stretch hmiddleNodup hhead hmiddle hreflects with
    ⟨later, hlater, hreflects', hcount⟩
  have htake : middle.take (middle.length + tail.length - head.length) = middle := by
    rw [List.take_of_length_le]
    omega
  have hsilent : later.count (x, true) = 0 := by
    cases tail with
    | nil =>
        rw [hlater.visits_of_finished]
        rfl
    | cons y tail =>
        have hbudget : (y :: tail).length - head.length ≤ 2 := by omega
        exact hlater.silent_of_broken (htail y List.mem_cons_self) hbudget hreflects' x
  rw [hcount x hsound, htake, if_pos hxmiddle, hsilent]

theorem exists_middle (broken : α → Prop) (members : List α) :
    (∀ x ∈ members, broken x) ∨
      ∃ head u stretch tail, members = head ++ (u :: stretch ++ tail) ∧
        (∀ x ∈ head, broken x) ∧ (∀ x ∈ u :: stretch, ¬ broken x) ∧
          (tail = [] ∨ ∃ y later, tail = y :: later ∧ broken y) := by
  rcases exists_stretch broken members with ⟨head, rest, hmembers, hhead, hrest⟩
  rcases hrest with hrest | ⟨u, us, hu, hsound⟩
  · left
    rw [hmembers, hrest, List.append_nil]
    exact hhead
  rcases exists_stretch (fun x => ¬ broken x) us with
    ⟨stretch, tail, hus, hstretch, htail⟩
  right
  refine ⟨head, u, stretch, tail, ?_, hhead, ?_, ?_⟩
  · rw [hmembers, hu, hus, List.cons_append]
  · intro x hx
    rcases List.mem_cons.mp hx with hx | hx
    · rw [hx]
      exact hsound
    · exact hstretch x hx
  · rcases htail with htail | ⟨y, later, htail, hy⟩
    · exact Or.inl htail
    · exact Or.inr ⟨y, later, htail, not_not.mp hy⟩

theorem Walk.sandwiched_of_sound_once [DecidableEq α]
    {members : List α} {visits : List (α × Bool)} (hnodup : members.Nodup)
    (hreflects : Reflects broken visits)
    (hwalk : Walk members.length [] members visits)
    (honce : ∀ x ∈ members, ¬ broken x → visits.count (x, true) = 1) :
    Sandwiched broken members := by
  rcases exists_middle broken members with
    hall | ⟨head, u, stretch, tail, hmembers, hhead, hmiddle, htail⟩
  · exact Or.inl hall
  subst members
  have hmiddleNodup : (u :: stretch).Nodup := hnodup.of_append_right.of_append_left
  have hdisjoint : ∀ x ∈ tail, x ∉ u :: stretch := by
    intro x hx hmem
    exact (List.nodup_append.mp hnodup.of_append_right).2.2 x hmem x hx rfl
  rcases hwalk.after_stretch hmiddleNodup hhead hmiddle hreflects with
    ⟨later, hlater, hreflects', hcount⟩
  have htotal : ∀ x, x ∈ u :: stretch ∨ x ∈ tail → ¬ broken x →
      (if x ∈ (u :: stretch).take ((u :: stretch).length + tail.length - head.length)
        then 1 else 0) + later.count (x, true) = 1 := by
    intro x hx hsound
    rw [← hcount x hsound]
    apply honce x _ hsound
    rw [List.mem_append, List.mem_append]
    exact Or.inr hx
  have hle : head.length ≤ tail.length := by
    by_contra hlt
    have hzero : tail.length - head.length = 0 := by omega
    rw [hzero] at hlater
    rw [hlater.visits_of_spent] at htotal
    have hsubset : u :: stretch ⊆
        (u :: stretch).take ((u :: stretch).length + tail.length - head.length) := by
      intro x hx
      by_contra hmissed
      have hone := htotal x (Or.inl hx) (hmiddle x hx)
      rw [if_neg hmissed] at hone
      simp at hone
    have hlength := (List.subperm_of_subset hmiddleNodup hsubset).length_le
    rw [List.length_take, List.length_cons] at hlength
    omega
  have hend : tail.length ≤ head.length + 2 ∧
      ∀ x ∈ tail, ¬ broken x → later.count (x, true) = 0 := by
    rcases htail with htail | ⟨y, rest, htail, hy⟩
    · subst tail
      exact ⟨by simp, by simp⟩
    subst tail
    by_cases hbudget : (y :: rest).length - head.length ≤ 2
    · refine ⟨by omega, ?_⟩
      intro x _ _
      exact hlater.silent_of_broken hy hbudget hreflects' x
    · -- The walk restarts and visits the first sound member again.
      exfalso
      have hvisited := htotal u (Or.inl List.mem_cons_self) (hmiddle u List.mem_cons_self)
      have htake : u ∈ (u :: stretch).take
          ((u :: stretch).length + (y :: rest).length - head.length) := by
        have hpos : (u :: stretch).length + (y :: rest).length - head.length =
            (stretch.length + (y :: rest).length - head.length) + 1 := by
          simp only [List.length_cons] at hbudget ⊢
          omega
        rw [hpos, List.take_succ_cons]
        exact List.mem_cons_self
      rw [if_pos htake] at hvisited
      have hagain := hlater.restarts_at_sound hy (hmiddle u List.mem_cons_self) hbudget
        hreflects'
      have hpositive := List.count_pos_iff.mpr hagain
      omega
  right
  refine ⟨head, u :: stretch, tail, rfl, hhead, hmiddle, ?_, hle, hend.1⟩
  intro x hx
  by_contra hsound
  have hone := htotal x (Or.inr hx) hsound
  have hnot : x ∉ (u :: stretch).take
      ((u :: stretch).length + tail.length - head.length) := by
    intro hmem
    exact hdisjoint x hx (List.mem_of_mem_take hmem)
  rw [if_neg hnot, hend.2 x hx hsound] at hone
  omega

/-- When brokenness does not change, every sound member is visited exactly once
if and only if the broken ones stand around them. -/
theorem Walk.sound_once_iff [DecidableEq α]
    {members : List α} {visits : List (α × Bool)} (hnodup : members.Nodup)
    (hreflects : Reflects broken visits)
    (hwalk : Walk members.length [] members visits) :
    (∀ x ∈ members, ¬ broken x → visits.count (x, true) = 1) ↔
      Sandwiched broken members :=
  ⟨hwalk.sandwiched_of_sound_once hnodup hreflects,
    hwalk.sound_once_of_sandwiched hnodup hreflects⟩

end Broken

end RestartWalk
