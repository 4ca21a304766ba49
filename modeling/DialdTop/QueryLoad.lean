import DialdTop.HostCache
import Mathlib.Algebra.Ring.Int.Defs
import Mathlib.Data.List.Induction

/-!
# The load limit of the name service

`do_load` moves two windows over the last three loads, and `resolve` asks the
name service only while their sums are small.  The second of its sums ends with
a received load in place of a transmitted one.
-/

namespace DialdTop

/-! ## Windows -/

def Loads.zero : Loads where
  rxload _ := 0
  txload _ := 0

/-- A call of `do_load`. -/
structure LoadCall where
  itxtotal : Int
  irxtotal : Int

def loadsAfter (history : List LoadCall) : Loads :=
  history.foldl (fun s call => doLoad call.itxtotal call.irxtotal s) .zero

/-- The sum of the last three loads, or of all of them when there are fewer. -/
def lastThree (loads : List Int) : Int :=
  (loads.reverse.take 3).sum

def received (history : List LoadCall) : List Int := history.map LoadCall.irxtotal

def transmitted (history : List LoadCall) : List Int := history.map LoadCall.itxtotal

theorem loadsAfter_append (history : List LoadCall) (call : LoadCall) :
    loadsAfter (history ++ [call]) = doLoad call.itxtotal call.irxtotal (loadsAfter history) := by
  rw [loadsAfter, List.foldl_append]
  rfl

/-- The window holds the last three loads, the latest one last, behind zeros. -/
def Holds (window : Fin 3 → Int) (loads : List Int) : Prop :=
  ∀ i : Fin 3, window i = loads.reverse.getD (2 - i) 0

theorem Holds.shift
    {window : Fin 3 → Int} {loads : List Int} (h : Holds window loads) (load : Int)
    {window' : Fin 3 → Int} (h₀ : window' 0 = window 1) (h₁ : window' 1 = window 2)
    (h₂ : window' 2 = load) : Holds window' (loads ++ [load]) := by
  intro i
  rw [List.reverse_append, List.reverse_singleton, List.singleton_append]
  match i with
  | 0 => exact h₀.trans (h 1)
  | 1 => exact h₁.trans (h 2)
  | 2 => exact h₂

theorem Holds.sum
    {window : Fin 3 → Int} {loads : List Int} (h : Holds window loads) :
    window 0 + window 1 + window 2 = lastThree loads := by
  rw [h 0, h 1, h 2, lastThree]
  cases loads.reverse with
  | nil => rfl
  | cons a rest =>
      cases rest with
      | nil => simp
      | cons b rest =>
          cases rest with
          | nil => simp; omega
          | cons c rest => simp; omega

theorem loadsAfter_holds (history : List LoadCall) :
    Holds (loadsAfter history).rxload (received history) ∧
      Holds (loadsAfter history).txload (transmitted history) := by
  induction history using List.reverseRecOn with
  | nil =>
      constructor
      · intro i
        rfl
      · intro i
        rfl
  | append_singleton history call ih =>
      rw [loadsAfter_append, received, transmitted, List.map_append, List.map_append]
      exact ⟨ih.1.shift call.irxtotal rfl rfl rfl, ih.2.shift call.itxtotal rfl rfl rfl⟩

/-! ## Queries -/

theorem ensure_queries
    (w : World) (addr : BitVec 32) (hr : Option ℕ) (t : HostTable) :
    (ensure w addr hr t).2.queries = t.queries := by
  cases hr with
  | some hr => rfl
  | none =>
      unfold ensure gettab
      dsimp only
      split
      · rfl
      · rfl

theorem learn_queries
    (w : World) (aaddr : List Byte) (addr : BitVec 32) (hr : Option ℕ) (t : HostTable) :
    (learn w aaddr addr hr t).2.queries = t.queries := by
  unfold learn
  split
  · split
    · exact ensure_queries w addr hr t
    · rfl
  · exact ensure_queries w addr hr t

/-- There is no record for the address, or it is too old. -/
def Expired (w : World) (addr : BitVec 32) (t : HostTable) : Prop :=
  ∀ r, t.stored addr = some r → w.now - r.timeResolved > hostrecExpire

theorem resolve_queries_ne_iff (w : World) (aaddr : List Byte) (t : HostTable) :
    (resolve w aaddr t).2.queries ≠ t.queries ↔
      w.numeric = false ∧ mayQuery w = true ∧
        ∃ addr, inetPton aaddr = some addr ∧ Expired w addr t := by
  unfold resolve
  cases haddr : inetPton aaddr with
  | none => simp
  | some addr =>
      cases hnumeric : w.numeric with
      | true => simp
      | false =>
          have hasked : ∀ hr query, (learn w aaddr addr hr
              { t with queries := t.queries ++ [query] }).2.queries ≠ t.queries := by
            intro hr query
            rw [learn_queries]
            simp
          cases hstored : t.stored addr with
          | none =>
              have hprobe := probetab_of_missing hstored
              have hexpired : Expired w addr t := by
                intro r hr
                rw [hstored] at hr
                cases hr
              by_cases hmay : mayQuery w
              · simp [hprobe, stale, hmay, hasked, hexpired]
              · simp [hprobe, stale, hmay]
          | some r =>
              have hprobe := probetab_of_stored hstored
              rcases gettab_of_stored w.garbage hstored with ⟨hr, hget, hrecord⟩
              have hexpired : Expired w addr t ↔ w.now - r.timeResolved > hostrecExpire := by
                simp [Expired, hstored]
              by_cases hmay : mayQuery w
              · by_cases hold : w.now - r.timeResolved > hostrecExpire
                · simp [hprobe, hget, stale, hrecord, hmay, hold, hasked, hexpired]
                · simp [hprobe, hget, stale, hrecord, hmay, hold, hexpired]
              · simp [hprobe, hget, hmay]

/-! ## Limits -/

/-- `resolve` finds the loads in the arrays of the client. -/
def World.loaded (w : World) (s : Loads) : World :=
  { w with rxload := s.rxload, txload := s.txload }

/-- Behind the history every query is one which the limits allow. -/
def QueriesWithinLimits (history : List LoadCall) : Prop :=
  ∀ w aaddr t, (resolve (w.loaded (loadsAfter history)) aaddr t).2.queries ≠ t.queries →
    w.currState = bytes "UP" ∧ w.numeric = false ∧
      (∃ addr, inetPton aaddr = some addr ∧ Expired w addr t) ∧
      lastThree (received history) < maxQueryLoad ∧
      lastThree (transmitted history) < maxQueryLoad

theorem mayQuery_loaded (w : World) (s : Loads) :
    mayQuery (w.loaded s) = true ↔ w.currState = bytes "UP" ∧ s.PassGuard := by
  rw [mayQuery, decide_eq_true_iff]
  rfl

/-- The limits are respected if and only if loads which pass the guard have small
sums. -/
theorem queriesWithinLimits_iff (history : List LoadCall) :
    QueriesWithinLimits history ↔
      ((loadsAfter history).PassGuard →
        (loadsAfter history).rxload 0 + (loadsAfter history).rxload 1 +
            (loadsAfter history).rxload 2 < maxQueryLoad ∧
          (loadsAfter history).txload 0 + (loadsAfter history).txload 1 +
            (loadsAfter history).txload 2 < maxQueryLoad) := by
  have hholds := loadsAfter_holds history
  rw [hholds.1.sum, hholds.2.sum]
  constructor
  · intro h hguard
    have hmay : mayQuery (World.answering.loaded (loadsAfter history)) = true :=
      (mayQuery_loaded _ _).mpr ⟨rfl, hguard⟩
    have hexpired : Expired (World.answering.loaded (loadsAfter history)) 0x0a000001 .empty := by
      intro r hr
      cases hr
    have hquery := (resolve_queries_ne_iff _ (bytes "10.0.0.1") .empty).mpr
      ⟨rfl, hmay, 0x0a000001, by decide +kernel, hexpired⟩
    exact (h World.answering (bytes "10.0.0.1") .empty hquery).2.2.2
  · intro h w aaddr t hquery
    rcases (resolve_queries_ne_iff _ aaddr t).mp hquery with ⟨hnumeric, hmay, hexpired⟩
    rcases (mayQuery_loaded _ _).mp hmay with ⟨hup, hguard⟩
    exact ⟨hup, hnumeric, hexpired, h hguard⟩

/-- The link sends 90 three times and receives nothing. -/
def sending : List LoadCall := [⟨90, 0⟩, ⟨90, 0⟩, ⟨90, 0⟩]

theorem exists_query_under_load :
    (∃ (w : World) (aaddr : List Byte) (t : HostTable),
      (resolve (w.loaded (loadsAfter sending)) aaddr t).2.queries ≠ t.queries) ∧
      lastThree (transmitted sending) = 270 ∧ ¬ QueriesWithinLimits sending := by
  have hquery : (resolve (World.answering.loaded (loadsAfter sending)) (bytes "10.0.0.1")
      .empty).2.queries ≠ HostTable.empty.queries := by
    decide +kernel
  refine ⟨⟨.answering, bytes "10.0.0.1", .empty, hquery⟩, by decide, ?_⟩
  intro hwithin
  have hlimit := (hwithin .answering (bytes "10.0.0.1") .empty hquery).2.2.2.2
  exact absurd hlimit (by decide)

end DialdTop
