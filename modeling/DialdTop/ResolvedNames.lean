import DialdTop.QueryLoad

/-!
# The names which `resolve` returns

The text is that of the latest definitive answer for the address, or the address
itself.  What is returned is a pointer into the table, and a later call may free
the text behind it; within one call of `do_packet` this does not happen.
-/

namespace DialdTop

/-! ## Records for an address -/

/-- The text of a record which the display uses. -/
def World.shows (w : World) (r : HostRec) : List Byte :=
  if w.truncLocalHosts then r.trunc else r.name

/-- The name which the answers give the address. -/
def nameIn (w : World) (queries : List Query) (aaddr : List Byte) (addr : BitVec 32) : List Byte :=
  ((latest queries addr).map w.shows).getD aaddr

/-- `resolve` asks the name service. -/
def Asks (w : World) (addr : BitVec 32) (t : HostTable) : Prop :=
  w.numeric = false ∧ mayQuery w = true ∧ Expired w addr t

/-- The record which is completed is found again at its place. -/
theorem ensure_record
    (w : World) {addr : BitVec 32} {hr : Option ℕ} {t : HostTable} (hpoints : Points addr t hr)
    (f : HostRec → HostRec) :
    let ensured := ensure w addr hr t
    ∃ old, (ensured.2.assign addr ensured.1 f).record addr ensured.1 = some (f old) := by
  cases hpoints with
  | null hmissing =>
      intro ensured
      have hensured : ensured =
          (0, { t with hosthash := HashTable.push t.hosthash (HostTable.hash addr) w.garbage }) :=
        gettab_of_missing w.garbage hmissing
      refine ⟨w.garbage, ?_⟩
      rw [hensured]
      simp [HostTable.record, HostTable.assign, HashTable.modify, HashTable.push]
  | @record hr old hold _ =>
      refine ⟨old, ?_⟩
      have hat : (t.hosthash (HostTable.hash addr))[hr]? = some old := hold
      simp [ensure, HostTable.record, HostTable.assign, HashTable.modify, hat]

theorem HostTable.stored_of_record
    {t : HostTable} (hwell : HashTable.WellFormed hash HostRec.addr t.hosthash)
    {addr : BitVec 32} {hr : ℕ} {r : HostRec} (h : t.record addr hr = some r)
    (haddr : r.addr = addr) : t.stored addr = some r :=
  (HashTable.lookup_eq_some_iff hwell).mpr ⟨List.mem_of_getElem? h, haddr⟩

theorem shownName_of_record
    (w : World) (aaddr : List Byte) {addr : BitVec 32} {t : HostTable} {hr : ℕ} {r : HostRec}
    (h : t.record addr hr = some r) : shownName w aaddr addr t (some hr) = w.shows r := by
  rw [shownName, h]
  rfl

/-! ## Pointers -/

/-- A `char *` which `resolve` returns: its argument, or a text of the record for
an address. -/
inductive NamePointer
  | argument
  | name (addr : BitVec 32)
  | trunc (addr : BitVec 32)
  deriving DecidableEq, Repr

/-- What is at the pointer. -/
def NamePointer.text (aaddr : List Byte) (t : HostTable) : NamePointer → Option (List Byte)
  | .argument => some aaddr
  | .name addr => (t.stored addr).map HostRec.name
  | .trunc addr => (t.stored addr).map HostRec.trunc

/-- The pointer which a call returns, and those it has freed. -/
structure Texts where
  returned : NamePointer
  freed : List NamePointer
  deriving DecidableEq, Repr

/-- `trunc_local_hosts` decides on the text of a record. -/
def World.pointer (w : World) (addr : BitVec 32) : NamePointer :=
  if w.truncLocalHosts then .trunc addr else .name addr

def shownPointer (w : World) (addr : BitVec 32) : Option ℕ → NamePointer
  | none => .argument
  | some _ => w.pointer addr

/-- `free(hr->name)` and `free(hr->trunc)`, unless the record is a new one. -/
def freedTexts (addr : BitVec 32) : Option ℕ → List NamePointer
  | none => []
  | some _ => [.name addr, .trunc addr]

/-- The part of `resolve` behind the call of `gethostbyaddr`. -/
def learnTexts (w : World) (addr : BitVec 32) (hr : Option ℕ) : Texts :=
  match w.gethostbyaddr addr with
  | .failed hErrno =>
      if hErrno = .hostNotFound ∨ hErrno = .noAddress then
        { returned := .argument, freed := freedTexts addr hr }
      else { returned := .argument, freed := [] }
  | .found _ => { returned := w.pointer addr, freed := freedTexts addr hr }

/-- The pointers of a call of `resolve`. -/
def resolveTexts (w : World) (aaddr : List Byte) (t : HostTable) : Texts :=
  match inetPton aaddr with
  | none => { returned := .argument, freed := [] }
  | some addr =>
      if w.numeric then { returned := .argument, freed := [] }
      else
        let (hr, t) :=
          if probetab addr t then
            let (hr, t) := gettab w.garbage addr t
            (some hr, t)
          else (none, t)
        if stale w addr t hr ∧ mayQuery w then learnTexts w addr hr
        else { returned := shownPointer w addr hr, freed := [] }

theorem World.pointer_text
    (w : World) (aaddr : List Byte) {addr : BitVec 32} {t : HostTable} {r : HostRec}
    (h : t.stored addr = some r) : (w.pointer addr).text aaddr t = some (w.shows r) := by
  unfold World.pointer World.shows
  split
  · rw [NamePointer.text, h]
    rfl
  · rw [NamePointer.text, h]
    rfl

/-! ## Calls -/

/-- How a call of `resolve` comes to its result and to its pointers. -/
inductive Resolves (w : World) (aaddr : List Byte) (t : HostTable) :
    List Byte × HostTable → Texts → Prop
  | literal : inetPton aaddr = none ∨ w.numeric = true →
      Resolves w aaddr t (aaddr, t) { returned := .argument, freed := [] }
  | unknown {addr : BitVec 32} : inetPton aaddr = some addr → w.numeric = false →
      ¬ Asks w addr t → t.stored addr = none →
        Resolves w aaddr t (aaddr, t) { returned := .argument, freed := [] }
  | known {addr : BitVec 32} {r : HostRec} : inetPton aaddr = some addr → w.numeric = false →
      ¬ Asks w addr t → t.stored addr = some r →
        Resolves w aaddr t (w.shows r, t) { returned := w.pointer addr, freed := [] }
  | unanswered {addr : BitVec 32} {t' : HostTable} : inetPton aaddr = some addr →
      Asks w addr t → (w.gethostbyaddr addr).Transient →
        Resolves w aaddr t (aaddr, t') { returned := .argument, freed := [] }
  | denied {addr : BitVec 32} {r : HostRec} {t' : HostTable} {hr : Option ℕ} :
      inetPton aaddr = some addr → Asks w addr t → ¬ (w.gethostbyaddr addr).Transient →
        Points addr t hr → t'.stored addr = some r → w.shows r = aaddr →
          Resolves w aaddr t (aaddr, t') { returned := .argument, freed := freedTexts addr hr }
  | answered {addr : BitVec 32} {r : HostRec} {t' : HostTable} {hr : Option ℕ} :
      inetPton aaddr = some addr → Asks w addr t → ¬ (w.gethostbyaddr addr).Transient →
        Points addr t hr → t'.stored addr = some r → r.timeResolved = w.now →
          Resolves w aaddr t (w.shows r, t')
            { returned := w.pointer addr, freed := freedTexts addr hr }

theorem learn_resolves
    {w : World} {aaddr : List Byte} {addr : BitVec 32} {hr : Option ℕ} {t : HostTable}
    (h : Refines t) (haddr : inetPton aaddr = some addr) (hasks : Asks w addr t)
    (hpoints : Points addr t hr) :
    let query : Query :=
      { addr := addr, aaddr := aaddr, host := w.gethostbyaddr addr, now := w.now
        domain := domainOf w t }
    Resolves w aaddr t (learn w aaddr addr hr { t with queries := t.queries ++ [query] })
      (learnTexts w addr hr) := by
  intro query
  have hpoints' : Points addr { t with queries := t.queries ++ [query] } hr := by
    cases hpoints with
    | null hmissing => exact .null hmissing
    | record hold hkey => exact .record hold hkey
  have hwell := (h.learns (learn_learns hasks.1 haddr hpoints)).wellFormed
  change HashTable.WellFormed HostTable.hash HostRec.addr
    (learn w aaddr addr hr { t with queries := t.queries ++ [query] }).2.hosthash at hwell
  cases hhost : w.gethostbyaddr addr with
  | failed hErrno =>
      by_cases hdefinite : hErrno = .hostNotFound ∨ hErrno = .noAddress
      · rcases ensure_record w hpoints' (complete addr aaddr w.now) with ⟨old, hrecord⟩
        simp only [learn, learnTexts, hhost, if_pos hdefinite] at hwell ⊢
        have hstored := HostTable.stored_of_record hwell hrecord rfl
        refine .denied haddr hasks ?_ hpoints hstored (ite_self aaddr)
        rw [hhost]
        rintro ⟨hfound, haddress⟩
        exact hdefinite.elim hfound haddress
      · simp only [learn, learnTexts, hhost, if_neg hdefinite]
        refine .unanswered haddr hasks ?_
        rw [hhost]
        exact not_or.mp hdefinite
  | found hName =>
      let shorten : HostRec → HostRec :=
        fun old => { old with trunc := truncateHostname (domainOf w t) old.trunc }
      rcases ensure_record w hpoints' (shorten ∘ complete addr hName w.now) with ⟨old, hrecord⟩
      have hsame : domainOf w
          (ensure w addr hr { t with queries := t.queries ++ [query] }).2 = domainOf w t := by
        rw [domainOf, (ensure_assign w hpoints' (rfl : (complete addr hName w.now old).addr = addr)
          fun _ => rfl).2.1]
        rfl
      simp only [HostTable.assign, ← HashTable.modify_modify, shorten] at hrecord
      rw [← hsame] at hrecord
      have hshown := shownName_of_record w aaddr hrecord
      simp only [learn, learnTexts, hhost] at hwell ⊢
      have hstored := HostTable.stored_of_record hwell hrecord rfl
      have htransient : ¬ (w.gethostbyaddr addr).Transient := by
        rw [hhost]
        exact not_false
      exact hshown ▸ .answered haddr hasks htransient hpoints hstored rfl

theorem resolve_resolves
    {t : HostTable} (h : Refines t) (w : World) (aaddr : List Byte) :
    Resolves w aaddr t (resolve w aaddr t) (resolveTexts w aaddr t) := by
  unfold resolve resolveTexts
  cases haddr : inetPton aaddr with
  | none => exact .literal (Or.inl haddr)
  | some addr =>
      cases hnumeric : w.numeric with
      | true => exact .literal (Or.inr hnumeric)
      | false =>
          simp only [Bool.false_eq_true, if_false]
          cases hstored : t.stored addr with
          | none =>
              simp only [probetab_of_missing hstored, Bool.false_eq_true, if_false, stale, true_and]
              have hexpired : Expired w addr t := by
                intro r hr
                rw [hstored] at hr
                cases hr
              split
              next hmay => exact learn_resolves h haddr ⟨hnumeric, hmay, hexpired⟩ (.null hstored)
              next hmay => exact .unknown haddr hnumeric (fun hasks => hmay hasks.2.1) hstored
          | some r =>
              rcases gettab_of_stored w.garbage hstored with ⟨hr, hget, hrecord⟩
              have hkey : r.addr = addr := by
                simpa using List.find?_some hstored
              have hexpired : stale w addr t (some hr) = true ↔ Expired w addr t := by
                simp [stale, hrecord, Expired, hstored]
              simp only [probetab_of_stored hstored, if_true, hget]
              split
              next hboth =>
                exact learn_resolves h haddr ⟨hnumeric, hboth.2, hexpired.mp hboth.1⟩
                  (.record hrecord hkey)
              next hnot =>
                rw [shownName_of_record w aaddr hrecord]
                refine .known haddr hnumeric (fun hasks => ?_) hstored
                exact hnot ⟨hexpired.mpr hasks.2.2, hasks.2.1⟩

theorem Refines.resolve
    {t : HostTable} (h : Refines t) (w : World) (aaddr : List Byte) :
    Refines (DialdTop.resolve w aaddr t).2 :=
  h.learns (resolve_learns w aaddr t)

/-! ## Names -/

/-- The call shows the address itself. -/
def ShowsAddress (w : World) (aaddr : List Byte) (t : HostTable) : Prop :=
  inetPton aaddr = none ∨ w.numeric = true ∨
    ∃ addr, inetPton aaddr = some addr ∧ Asks w addr t ∧ (w.gethostbyaddr addr).Transient

/-- What is at the pointer after the call is its result. -/
theorem Resolves.text
    {w : World} {aaddr : List Byte} {t t' : HostTable} {name : List Byte} {texts : Texts}
    (h : Resolves w aaddr t (name, t') texts) : texts.returned.text aaddr t' = some name := by
  cases h with
  | literal => rfl
  | unknown => rfl
  | unanswered => rfl
  | denied => rfl
  | known _ _ _ hstored => exact w.pointer_text aaddr hstored
  | answered _ _ _ _ hstored _ => exact w.pointer_text aaddr hstored

theorem Resolves.name_eq
    {w : World} {aaddr : List Byte} {t t' : HostTable} {name : List Byte} {texts : Texts}
    (h : Resolves w aaddr t (name, t') texts) (ht' : Refines t') :
    (ShowsAddress w aaddr t → name = aaddr) ∧
      (¬ ShowsAddress w aaddr t → ∃ addr, inetPton aaddr = some addr ∧
        name = nameIn w t'.queries aaddr addr) := by
  have hnameIn : ∀ addr, nameIn w t'.queries aaddr addr =
      ((t'.stored addr).map w.shows).getD aaddr := by
    intro addr
    rw [nameIn, ht'.stored]
  have hshows : ∀ {addr : BitVec 32}, inetPton aaddr = some addr → w.numeric = false →
      (Asks w addr t → ¬ (w.gethostbyaddr addr).Transient) → ¬ ShowsAddress w aaddr t := by
    rintro addr haddr hnumeric htransient (hnone | hset | ⟨addr', haddr', hasks, hanswer⟩)
    · rw [haddr] at hnone
      cases hnone
    · rw [hnumeric] at hset
      cases hset
    · rw [haddr] at haddr'
      cases haddr'
      exact htransient hasks hanswer
  cases h with
  | literal hliteral =>
      refine ⟨fun _ => rfl, fun hnot => absurd ?_ hnot⟩
      exact hliteral.imp_right Or.inl
  | @unknown addr haddr hnumeric hasks hstored =>
      refine ⟨fun _ => rfl, fun _ => ⟨addr, haddr, ?_⟩⟩
      rw [hnameIn, hstored]
      rfl
  | @known addr r haddr hnumeric hasks hstored =>
      refine ⟨fun hshown => absurd hshown (hshows haddr hnumeric fun h => absurd h hasks), ?_⟩
      refine fun _ => ⟨addr, haddr, ?_⟩
      rw [hnameIn, hstored]
      rfl
  | @unanswered addr _ haddr hasks htransient =>
      refine ⟨fun _ => rfl, fun hnot => absurd ?_ hnot⟩
      exact Or.inr (Or.inr ⟨addr, haddr, hasks, htransient⟩)
  | @denied addr r _ _ haddr hasks htransient _ hstored hname =>
      refine ⟨fun _ => rfl, fun _ => ⟨addr, haddr, ?_⟩⟩
      rw [hnameIn, hstored]
      exact hname.symm
  | @answered addr r _ _ haddr hasks htransient _ hstored _ =>
      refine ⟨fun hshown => absurd hshown (hshows haddr hasks.1 fun _ => htransient), ?_⟩
      refine fun _ => ⟨addr, haddr, ?_⟩
      rw [hnameIn, hstored]
      rfl

theorem Refines.name_eq {t : HostTable} (h : Refines t) (w : World) (aaddr : List Byte) :
    (ShowsAddress w aaddr t → (DialdTop.resolve w aaddr t).1 = aaddr) ∧
      (¬ ShowsAddress w aaddr t → ∃ addr, inetPton aaddr = some addr ∧
        (DialdTop.resolve w aaddr t).1 =
          nameIn w (DialdTop.resolve w aaddr t).2.queries aaddr addr) :=
  (resolve_resolves h w aaddr).name_eq (h.resolve w aaddr)

/-- After any calls, the name for an address is the latest definitive answer for
it, or the address itself. -/
theorem resolved_name (calls : List (World × List Byte)) (w : World) (aaddr : List Byte) :
    let t := resolveAll calls .empty
    (ShowsAddress w aaddr t → (resolve w aaddr t).1 = aaddr) ∧
      (¬ ShowsAddress w aaddr t → ∃ addr, inetPton aaddr = some addr ∧
        (resolve w aaddr t).1 = nameIn w (resolve w aaddr t).2.queries aaddr addr) :=
  (refines_resolveAll refines_empty calls).name_eq w aaddr

/-! ## Texts which are still there -/

/-- The variables of the client are the same; the library may answer otherwise. -/
structure World.Alike (w w' : World) : Prop where
  numeric : w'.numeric = w.numeric
  now : w'.now = w.now
  currState : w'.currState = w.currState
  rxload : w'.rxload = w.rxload
  txload : w'.txload = w.txload
  truncLocalHosts : w'.truncLocalHosts = w.truncLocalHosts

theorem World.Alike.mayQuery {w w' : World} (h : w.Alike w') :
    DialdTop.mayQuery w' = DialdTop.mayQuery w := by
  unfold DialdTop.mayQuery
  rw [h.currState, h.rxload, h.txload]

/-- Behind a call which returns a text of the table, the address is not asked for
again. -/
theorem Resolves.settled
    {w : World} {aaddr : List Byte} {t t' : HostTable} {name : List Byte} {texts : Texts}
    (h : Resolves w aaddr t (name, t') texts) (hreturned : texts.returned ≠ .argument) :
    ∃ addr, inetPton aaddr = some addr ∧ texts.returned = w.pointer addr ∧
      ∀ w', w.Alike w' → ¬ Asks w' addr t' := by
  cases h with
  | literal => exact absurd rfl hreturned
  | unknown => exact absurd rfl hreturned
  | unanswered => exact absurd rfl hreturned
  | denied => exact absurd rfl hreturned
  | @known addr r haddr hnumeric hasks hstored =>
      refine ⟨addr, haddr, rfl, fun w' halike hasks' => hasks ⟨hnumeric, ?_, ?_⟩⟩
      · rw [← halike.mayQuery]
        exact hasks'.2.1
      · intro r hr
        rw [← halike.now]
        exact hasks'.2.2 r hr
  | @answered addr r _ _ haddr hasks _ _ hstored hnow =>
      refine ⟨addr, haddr, rfl, fun w' halike hasks' => ?_⟩
      have hold := hasks'.2.2 r hstored
      rw [hnow, halike.now, sub_self] at hold
      exact absurd hold (by decide)

/-- A call which frees texts asks for their address. -/
theorem Resolves.freed
    {w : World} {aaddr : List Byte} {t t' : HostTable} {name : List Byte} {texts : Texts}
    (h : Resolves w aaddr t (name, t') texts) {p : NamePointer} (hp : p ∈ texts.freed) :
    ∃ addr, inetPton aaddr = some addr ∧ Asks w addr t ∧ (p = .name addr ∨ p = .trunc addr) := by
  have hmem : ∀ {addr : BitVec 32} {hr : Option ℕ}, p ∈ freedTexts addr hr →
      p = .name addr ∨ p = .trunc addr := by
    intro addr hr hp
    cases hr with
    | none => cases hp
    | some hr => simpa [freedTexts] using hp
  cases h with
  | literal => cases hp
  | unknown => cases hp
  | known => cases hp
  | unanswered => cases hp
  | @denied addr _ _ _ haddr hasks => exact ⟨addr, haddr, hasks, hmem hp⟩
  | @answered addr _ _ _ haddr hasks => exact ⟨addr, haddr, hasks, hmem hp⟩

theorem World.pointer_ne {w : World} {addr addr' : BitVec 32} {p : NamePointer}
    (hp : p = .name addr ∨ p = .trunc addr) (heq : p = w.pointer addr') : addr = addr' := by
  unfold World.pointer at heq
  split at heq
  · subst heq
    rcases hp with hp | hp
    · cases hp
    · exact (NamePointer.trunc.inj hp).symm
  · subst heq
    rcases hp with hp | hp
    · exact (NamePointer.name.inj hp).symm
    · cases hp

theorem Resolves.unchanged
    {w : World} {aaddr : List Byte} {t t' : HostTable} {name : List Byte} {texts : Texts}
    (h : Resolves w aaddr t (name, t') texts) {addr : BitVec 32}
    (haddr : inetPton aaddr = some addr) (hasks : ¬ Asks w addr t) : t' = t := by
  have hnot : ∀ {addr' : BitVec 32}, inetPton aaddr = some addr' → ¬ Asks w addr' t := by
    intro addr' haddr'
    rw [haddr] at haddr'
    cases haddr'
    exact hasks
  cases h with
  | literal => rfl
  | unknown => rfl
  | known => rfl
  | unanswered haddr' hasks' => exact absurd hasks' (hnot haddr')
  | denied haddr' hasks' => exact absurd hasks' (hnot haddr')
  | answered haddr' hasks' => exact absurd hasks' (hnot haddr')

/-- Another call keeps the record of an address which it does not ask for. -/
theorem Refines.stored_resolve
    {t : HostTable} (h : Refines t) {w : World} {addr : BitVec 32} (hasks : ¬ Asks w addr t)
    (aaddr : List Byte) : (DialdTop.resolve w aaddr t).2.stored addr = t.stored addr := by
  by_cases haddr : inetPton aaddr = some addr
  · have hsame : (DialdTop.resolve w aaddr t).2 = t :=
      (resolve_resolves h w aaddr).unchanged haddr hasks
    rw [hsame]
  · exact (resolve_learns w aaddr t).stored_eq h.wellFormed (Or.inr (Or.inr haddr))

/-- The two names which are printed for a packet are both still there: the second
call frees no text which the first one has returned, and changes none. -/
theorem names_kept
    (calls : List (World × List Byte)) {w w' : World} (halike : w.Alike w')
    (first second : List Byte) :
    let t := resolveAll calls .empty
    let called := resolve w first t
    let called' := resolve w' second called.2
    (resolveTexts w first t).returned ∉ (resolveTexts w' second called.2).freed ∧
      (resolveTexts w first t).returned.text first called'.2 = some called.1 ∧
      (resolveTexts w' second called.2).returned.text second called'.2 = some called'.1 := by
  intro t called called'
  have hrefines : Refines t := refines_resolveAll refines_empty calls
  have hrefines' : Refines called.2 := hrefines.resolve w first
  have hfirst := resolve_resolves hrefines w first
  have hsecond := resolve_resolves hrefines' w' second
  have htext : (resolveTexts w first t).returned.text first called.2 = some called.1 := hfirst.text
  by_cases hreturned : (resolveTexts w first t).returned = .argument
  · refine ⟨fun hfreed => ?_, ?_, hsecond.text⟩
    · rcases hsecond.freed hfreed with ⟨addr, _, _, hname | htrunc⟩
      · rw [hreturned] at hname
        cases hname
      · rw [hreturned] at htrunc
        cases htrunc
    · rw [hreturned] at htext ⊢
      exact htext
  · rcases hfirst.settled hreturned with ⟨addr, haddr, hpointer, hsettled⟩
    refine ⟨fun hfreed => ?_, ?_, hsecond.text⟩
    · rcases hsecond.freed hfreed with ⟨addr', _, hasks, hp⟩
      rw [World.pointer_ne hp hpointer] at hasks
      exact hsettled w' halike hasks
    · have hstored : called'.2.stored addr = called.2.stored addr :=
        hrefines'.stored_resolve (hsettled w' halike) second
      rw [← htext, hpointer]
      unfold World.pointer
      split
      · rw [NamePointer.text, NamePointer.text, hstored]
      · rw [NamePointer.text, NamePointer.text, hstored]

/-- Two calls for one address, of which the first one has learnt its name. -/
theorem names_kept_answering :
    let t := (resolve .answering (bytes "10.0.0.1") .empty).2
    let t' := (resolve .answering (bytes "10.0.0.1") t).2
    (NamePointer.trunc 0x0a000001).text (bytes "10.0.0.1") t' = some (bytes "gate") := by
  intro t t'
  have halike : World.answering.Alike .answering := ⟨rfl, rfl, rfl, rfl, rfl, rfl⟩
  have hkept := names_kept [] halike (bytes "10.0.0.1") (bytes "10.0.0.1")
  have hreturned : (resolveTexts .answering (bytes "10.0.0.1") .empty).returned =
      .trunc 0x0a000001 := by
    decide +kernel
  have hname : (resolve .answering (bytes "10.0.0.1") .empty).1 = bytes "gate" := by
    decide +kernel
  have htext := hkept.2.1
  rw [show (resolveTexts .answering (bytes "10.0.0.1") (resolveAll [] .empty)).returned = _
    from hreturned, show (resolve .answering (bytes "10.0.0.1") (resolveAll [] .empty)).1 = _
    from hname] at htext
  exact htext

end DialdTop
