import DialdTop.HostTable

/-!
# The table of host names as a finite map

Each definitive answer of the name service is an entry of a finite map from
addresses, and later entries replace earlier ones.  After any sequence of calls
the table is well formed, and read as a map it is the map of the answers.
-/

namespace DialdTop

/-! ## The map -/

/-- The record which an answer gives rise to, if it is definitive. -/
def Query.entry (q : Query) : Option HostRec :=
  match q.host with
  | .found hName =>
      some { addr := q.addr, name := hName, trunc := truncateHostname q.domain hName,
             timeResolved := q.now }
  | .failed hErrno =>
      if hErrno = .hostNotFound ∨ hErrno = .noAddress then
        some { addr := q.addr, name := q.aaddr, trunc := q.aaddr, timeResolved := q.now }
      else none

/-- The entry of the most recent definitive answer for the address. -/
def latest (queries : List Query) (addr : BitVec 32) : Option HostRec :=
  ((queries.filter fun q => q.addr = addr).filterMap Query.entry).getLast?

/-- The record stored for the address. -/
def HostTable.stored (t : HostTable) (addr : BitVec 32) : Option HostRec :=
  HashTable.lookup HostTable.hash HostRec.addr t.hosthash addr

theorem latest_append (queries : List Query) (q : Query) (addr : BitVec 32) :
    latest (queries ++ [q]) addr =
      if q.addr = addr then q.entry.or (latest queries addr) else latest queries addr := by
  by_cases haddr : q.addr = addr
  · rw [if_pos haddr, latest, List.filter_append, List.filterMap_append]
    cases hentry : q.entry with
    | none => simp [haddr, hentry, latest]
    | some r => simp [haddr, hentry]
  · simp [latest, haddr]

theorem latest_isSome_iff (queries : List Query) (addr : BitVec 32) :
    (latest queries addr).isSome ↔ ∃ q ∈ queries, q.addr = addr ∧ q.entry ≠ none := by
  rw [latest, Option.isSome_iff_ne_none, ne_eq, List.getLast?_eq_none_iff,
    List.filterMap_eq_nil_iff]
  simp only [List.mem_filter, decide_eq_true_eq, not_forall, ne_eq]
  constructor
  · rintro ⟨q, ⟨hq, haddr⟩, hentry⟩
    exact ⟨q, hq, haddr, hentry⟩
  · rintro ⟨q, hq, haddr, hentry⟩
    exact ⟨q, ⟨hq, haddr⟩, hentry⟩

theorem HostTable.hash_lt (addr : BitVec 32) : hash addr < hashSize := by
  have hbyte : ∀ c : BitVec 8, c.toNat < 256 := fun c => c.isLt
  unfold hash hashSize
  simp only [Nat.shiftLeft_eq]
  have hlow := hbyte (addr.extractLsb' (8 * (3 - 0)) 8 ^^^ addr.extractLsb' (8 * (3 - 2)) 8)
  have hhigh := hbyte (addr.extractLsb' (8 * (3 - 1)) 8 ^^^ addr.extractLsb' (8 * (3 - 3)) 8)
  omega

/-! ## Single functions -/

theorem probetab_eq_isSome (addr : BitVec 32) (t : HostTable) :
    probetab addr t = (t.stored addr).isSome := by
  rw [Bool.eq_iff_iff, probetab, HostTable.stored, HashTable.lookup, List.find?_isSome,
    List.any_eq_true]

theorem probetab_of_missing {addr : BitVec 32} {t : HostTable} (h : t.stored addr = none) :
    probetab addr t = false := by
  rw [probetab_eq_isSome, h, Option.isSome_none]

theorem probetab_of_stored
    {addr : BitVec 32} {t : HostTable} {r : HostRec} (h : t.stored addr = some r) :
    probetab addr t = true := by
  rw [probetab_eq_isSome, h, Option.isSome_some]

theorem gettab_of_stored
    (garbage : HostRec) {addr : BitVec 32} {t : HostTable} {r : HostRec}
    (h : t.stored addr = some r) :
    ∃ hr, gettab garbage addr t = (hr, t) ∧ t.record addr hr = some r := by
  cases hpos : HashTable.position HostTable.hash HostRec.addr t.hosthash addr with
  | none =>
      rw [HashTable.position_eq_none_iff] at hpos
      rw [HostTable.stored, hpos] at h
      cases h
  | some hr =>
      rcases HashTable.position_eq_some hpos with ⟨q, hq, hlookup⟩
      rw [HostTable.stored, hlookup] at h
      cases h
      exact ⟨hr, by rw [gettab, hpos], hq⟩

theorem gettab_of_missing
    (garbage : HostRec) {addr : BitVec 32} {t : HostTable} (h : t.stored addr = none) :
    gettab garbage addr t =
      (0, { t with hosthash := HashTable.push t.hosthash (HostTable.hash addr) garbage }) := by
  rw [gettab, HashTable.position_eq_none_iff.mpr h]

/-- `hr` is the null pointer, or points at the record for the address. -/
inductive Points (addr : BitVec 32) (t : HostTable) : Option ℕ → Prop
  | null : t.stored addr = none → Points addr t none
  | record {hr : ℕ} {old : HostRec} : t.record addr hr = some old → old.addr = addr →
      Points addr t (some hr)

/-- Whatever a new record holds, it is in the table only when it is complete. -/
theorem ensure_assign
    (w : World) {addr : BitVec 32} {hr : Option ℕ} {t : HostTable} (hpoints : Points addr t hr)
    {r : HostRec} (hr' : r.addr = addr) {f : HostRec → HostRec} (hf : ∀ old, f old = r) :
    let ensured := ensure w addr hr t
    HashTable.Stores HostTable.hash HostRec.addr t.hosthash r
        (ensured.2.assign addr ensured.1 f).hosthash ∧
      ensured.2.mydomain = t.mydomain ∧ ensured.2.queries = t.queries := by
  have hconst : f = fun _ => r := funext hf
  subst addr
  cases hpoints with
  | null hmissing =>
      intro ensured
      have hensured : ensured =
          (0, { t with hosthash := HashTable.push t.hosthash (HostTable.hash r.addr) w.garbage }) :=
        gettab_of_missing w.garbage hmissing
      rw [hensured]
      refine ⟨?_, rfl, rfl⟩
      simp only [HostTable.assign, HashTable.modify_push, hconst]
      exact .insert hmissing
  | record hold haddr =>
      refine ⟨?_, rfl, rfl⟩
      simp only [ensure, HostTable.assign, hconst]
      exact .replace hold haddr

/-- What a call of `resolve` does to the table. -/
inductive Learns (w : World) (aaddr : List Byte) (t : HostTable) : HostTable → Prop
  | nothing : Learns w aaddr t t
  | transient {q : Query} {t' : HostTable} : w.numeric = false →
      inetPton aaddr = some q.addr → q.host = w.gethostbyaddr q.addr → q.entry = none →
      t'.hosthash = t.hosthash → t'.queries = t.queries ++ [q] → Learns w aaddr t t'
  | definitive {q : Query} {r : HostRec} {t' : HostTable} : w.numeric = false →
      inetPton aaddr = some q.addr → q.host = w.gethostbyaddr q.addr → q.entry = some r →
      HashTable.Stores HostTable.hash HostRec.addr t.hosthash r t'.hosthash →
      t'.queries = t.queries ++ [q] → Learns w aaddr t t'

theorem learn_learns
    {w : World} {aaddr : List Byte} {addr : BitVec 32} {hr : Option ℕ} {t : HostTable}
    (hnumeric : w.numeric = false) (haddr : inetPton aaddr = some addr)
    (hpoints : Points addr t hr) :
    let query : Query :=
      { addr := addr, aaddr := aaddr, host := w.gethostbyaddr addr, now := w.now
        domain := domainOf w t }
    Learns w aaddr t
      (learn w aaddr addr hr { t with queries := t.queries ++ [query] }).2 := by
  intro query
  have hpoints' : Points addr { t with queries := t.queries ++ [query] } hr := by
    cases hpoints with
    | null hmissing => exact .null hmissing
    | record hold hkey => exact .record hold hkey
  cases hhost : w.gethostbyaddr addr with
  | failed hErrno =>
      by_cases hdefinite : hErrno = .hostNotFound ∨ hErrno = .noAddress
      · have hentry : query.entry = some
            { addr := addr, name := aaddr, trunc := aaddr, timeResolved := w.now } := by
          simp [query, Query.entry, hhost, hdefinite]
        let r : HostRec :=
          { addr := addr, name := aaddr, trunc := aaddr, timeResolved := w.now }
        have hassign := ensure_assign w hpoints' (rfl : r.addr = addr)
          (fun old => (rfl : complete addr aaddr w.now old = r))
        simp only [learn, hhost, if_pos hdefinite]
        exact .definitive hnumeric haddr rfl hentry hassign.1 hassign.2.2
      · have hentry : query.entry = none := by
          simp [query, Query.entry, hhost, hdefinite]
        simp only [learn, hhost, if_neg hdefinite]
        exact .transient hnumeric haddr rfl hentry rfl rfl
  | found hName =>
      obtain ⟨domain, hdomain⟩ : ∃ domain, domainOf w t = domain := ⟨_, rfl⟩
      let r : HostRec :=
        { addr := addr, name := hName, trunc := truncateHostname domain hName
          timeResolved := w.now }
      have hentry : query.entry = some r := by
        simp [query, Query.entry, hhost, r, hdomain]
      let shorten : HostRec → HostRec :=
        fun old => { old with trunc := truncateHostname domain old.trunc }
      have hassign := ensure_assign w hpoints' (rfl : r.addr = addr)
        (fun old => (rfl : (shorten ∘ complete addr hName w.now) old = r))
      have hsame : domainOf w
          (ensure w addr hr { t with queries := t.queries ++ [query] }).2 = domain := by
        rw [← hdomain, domainOf, hassign.2.1]
        rfl
      refine .definitive hnumeric haddr rfl hentry ?_ ?_
      · have hstores := hassign.1
        simp only [HostTable.assign, ← HashTable.modify_modify, shorten] at hstores
        rw [← hsame] at hstores
        simp only [learn, hhost]
        exact hstores
      · simp only [learn, hhost]
        exact hassign.2.2

theorem resolve_learns
    (w : World) (aaddr : List Byte) (t : HostTable) :
    Learns w aaddr t (resolve w aaddr t).2 := by
  unfold resolve
  cases haddr : inetPton aaddr with
  | none => exact .nothing
  | some addr =>
      cases hnumeric : w.numeric with
      | true => exact .nothing
      | false =>
          simp only [Bool.false_eq_true, if_false]
          cases hstored : t.stored addr with
          | none =>
              simp only [probetab_of_missing hstored, Bool.false_eq_true, if_false]
              split
              · exact learn_learns hnumeric haddr (.null hstored)
              · exact .nothing
          | some r =>
              rcases gettab_of_stored w.garbage hstored with ⟨hr, hget, hrecord⟩
              have hkey : r.addr = addr := by
                simpa using List.find?_some hstored
              simp only [probetab_of_stored hstored, if_true, hget]
              split
              · exact learn_learns hnumeric haddr (.record hrecord hkey)
              · exact .nothing

/-! ## Runs -/

/-- The table is well formed and holds the latest answers. -/
structure Refines (t : HostTable) : Prop where
  wellFormed : HashTable.WellFormed HostTable.hash HostRec.addr t.hosthash
  stored : ∀ addr, t.stored addr = latest t.queries addr

theorem refines_empty : Refines .empty where
  wellFormed := HashTable.wellFormed_empty
  stored _ := rfl

theorem Query.entry_addr {q : Query} {r : HostRec} (h : q.entry = some r) :
    r.addr = q.addr := by
  unfold Query.entry at h
  split at h
  · cases h
    rfl
  · split at h
    · cases h
      rfl
    · cases h

theorem Refines.learns
    {w : World} {aaddr : List Byte} {t t' : HostTable} (h : Refines t)
    (hlearns : Learns w aaddr t t') : Refines t' := by
  cases hlearns with
  | nothing => exact h
  | transient _ _ _ hentry hhash hqueries =>
      refine ⟨by rw [hhash]; exact h.wellFormed, ?_⟩
      intro addr
      rw [HostTable.stored, hhash, ← HostTable.stored, h.stored, hqueries, latest_append, hentry,
        Option.none_or, ite_self]
  | definitive _ _ _ hentry hstores hqueries =>
      refine ⟨hstores.wellFormed h.wellFormed, ?_⟩
      intro addr
      rw [HostTable.stored, hstores.lookup h.wellFormed, ← HostTable.stored, h.stored, hqueries,
        latest_append, hentry, Option.some_or, Query.entry_addr hentry]
      simp only [eq_comm]

/-- The table after a sequence of calls. -/
def resolveAll (calls : List (World × List Byte)) (t : HostTable) : HostTable :=
  calls.foldl (fun t call => (resolve call.1 call.2 t).2) t

theorem refines_resolveAll
    {t : HostTable} (h : Refines t) (calls : List (World × List Byte)) :
    Refines (resolveAll calls t) := by
  induction calls generalizing t with
  | nil => exact h
  | cons call calls ih => exact ih (h.learns (resolve_learns call.1 call.2 t))

/-- The answer of the name service does not say whether the address has a name. -/
def Host.Transient : Host → Prop
  | .found _ => False
  | .failed hErrno => hErrno ≠ .hostNotFound ∧ hErrno ≠ .noAddress

theorem Learns.stored_eq
    {w : World} {aaddr : List Byte} {t t' : HostTable}
    (hwell : HashTable.WellFormed HostTable.hash HostRec.addr t.hosthash)
    (hlearns : Learns w aaddr t t') {addr : BitVec 32}
    (h : (w.gethostbyaddr addr).Transient ∨ w.numeric = true ∨ inetPton aaddr ≠ some addr) :
    t'.stored addr = t.stored addr := by
  cases hlearns with
  | nothing => rfl
  | transient _ _ _ _ hhash _ => rw [HostTable.stored, hhash, ← HostTable.stored]
  | definitive hnumeric haddr hhost hentry hstores _ =>
      rename_i q r _
      rw [HostTable.stored, hstores.lookup hwell, ← HostTable.stored, if_neg]
      intro hsame
      rw [Query.entry_addr hentry] at hsame
      subst addr
      rcases h with h | h | h
      · rw [← hhost] at h
        unfold Query.entry at hentry
        cases hq : q.host with
        | found hName =>
            rw [hq] at h
            exact h
        | failed hErrno =>
            rw [hq] at h
            simp [hq, h.1, h.2] at hentry
      · rw [hnumeric] at h
        cases h
      · exact h haddr

theorem hostTable_refines (calls : List (World × List Byte)) :
    let t := resolveAll calls .empty
    (∀ h, ∀ r ∈ t.hosthash h, HostTable.hash r.addr = h ∧ h < hashSize) ∧
      (∀ (h h' i j : ℕ) (r r' : HostRec), (t.hosthash h)[i]? = some r →
        (t.hosthash h')[j]? = some r' → r.addr = r'.addr → h = h' ∧ i = j) ∧
      (∀ addr, probetab addr t = true ↔
        ∃ q ∈ t.queries, q.addr = addr ∧ q.entry ≠ none) ∧
      (∀ addr garbage, probetab addr t = true →
        ∃ hr r, gettab garbage addr t = (hr, t) ∧ t.record addr hr = some r ∧
          latest t.queries addr = some r) ∧
      ∀ w aaddr addr,
        (w.gethostbyaddr addr).Transient ∨ w.numeric = true ∨ inetPton aaddr ≠ some addr →
          (resolve w aaddr t).2.stored addr = t.stored addr := by
  intro t
  have hrefines : Refines t := refines_resolveAll refines_empty calls
  have hwell := hrefines.wellFormed
  refine ⟨?_, ?_, ?_, ?_, ?_⟩
  · intro h r hr
    have hh := hwell.inChain h r hr
    exact ⟨hh, by rw [← hh]; exact HostTable.hash_lt r.addr⟩
  · intro h h' i j r r' hr hr' haddr
    exact hwell.unique hr hr' haddr
  · intro addr
    rw [probetab_eq_isSome, hrefines.stored, latest_isSome_iff]
  · intro addr garbage hprobe
    rw [probetab_eq_isSome, Option.isSome_iff_exists] at hprobe
    rcases hprobe with ⟨r, hr⟩
    rcases gettab_of_stored garbage hr with ⟨hr', hget, hrecord⟩
    rw [hrefines.stored] at hr
    exact ⟨hr', r, hget, hrecord, hr⟩
  · intro w aaddr addr h
    exact (resolve_learns w aaddr t).stored_eq hwell h

/-- The link is up and idle, and the name service knows every address. -/
def World.answering : World where
  numeric := false
  now := 1000
  currState := bytes "UP"
  rxload _ := 0
  txload _ := 0
  truncLocalHosts := true
  gethostbyaddr _ := .found (bytes "gate.lan")
  getdomainname := bytes "lan"
  garbage := { addr := 0, name := [], trunc := [], timeResolved := 0 }

theorem hostTable_refines_answering :
    let t := resolveAll [(.answering, bytes "10.0.0.1")] .empty
    ∃ hr, t.record 0x0a000001 hr =
      some { addr := 0x0a000001, name := bytes "gate.lan", trunc := bytes "gate"
             timeResolved := 1000 } := by
  intro t
  have hrefines := hostTable_refines [(.answering, bytes "10.0.0.1")]
  rcases hrefines.2.2.2.1 0x0a000001 World.answering.garbage (by decide +kernel) with
    ⟨hr, r, _, hrecord, hlatest⟩
  have hr' : latest t.queries 0x0a000001 =
      some { addr := 0x0a000001, name := bytes "gate.lan", trunc := bytes "gate"
             timeResolved := 1000 } := by
    decide +kernel
  rw [hlatest, Option.some.injEq] at hr'
  rw [hr'] at hrecord
  exact ⟨hr, hrecord⟩

end DialdTop
