import DialdTop.ConfScanner
import DialdTop.ServerState
import Mathlib.Data.List.Basic

/-!
# Grammar of the configuration file

The parser reduces as soon as it has shifted the last symbol of a right-hand
side, so that it can be followed token by token.  `Newline` transcribes the
productions, and `yyparse_eq_ok_iff` says that the parser accepts exactly what
they derive.
-/

namespace DialdTop

/-- The value of `ip`: `inet_pton` stores into an automatic variable, which
held `garbage`, and its result is not examined. -/
def ipValue (text : List Byte) (garbage : BitVec 32) : BitVec 32 :=
  (inetPton text).getD garbage

def authAddLine (userid : List Byte) (ip : BitVec 32) : List Byte :=
  bytes "Added user: " ++ userid ++ bytes "@" ++ inetNtoa ip ++ bytes "/"

/-- Besides adding to the list, `auth_add` formats a line for the log into a
buffer of 256 bytes. -/
def authAdd (aq : List AuthData) (userid : List Byte) (ip netmask : BitVec 32) :
    Except Halt (List AuthData) := do
  let line ← intoBuffer 256 (authAddLine userid ip)
  let _ ← intoBuffer 256 (line ++ inetNtoa netmask)
  return { userid := userid, ip := ip &&& netmask, netmask := netmask } :: aq

/-- The parser.  `started` says whether `newline` is on its stack, `k` counts
the reductions to `ip`.  Any other token is a syntax error, on which `yyerror`
exits. -/
def yyparse (garbage : ℕ → BitVec 32) :
    ℕ → Bool → List ConfToken → List AuthData → Except Halt (List AuthData)
  | _, true, [], aq => .ok aq
  | k, _, .newline :: later, aq => yyparse garbage k true later aq
  | k, _, .userid user :: .ip a :: .ip m :: .newline :: later, aq =>
      match authAdd aq user (ipValue a (garbage k)) (ipValue m (garbage (k + 1))) with
      | .error reason => .error reason
      | .ok aq => yyparse garbage (k + 2) true later aq
  | _, _, _, _ => .error (.exit 1)

/-! ## The grammar -/

/-- The texts of the symbols on the right-hand side of an entry. -/
structure ConfEntry where
  userid : List Byte
  ip : List Byte
  netmask : List Byte
  deriving DecidableEq, Repr

def ConfEntry.tokens (e : ConfEntry) : List ConfToken :=
  [.userid e.userid, .ip e.ip, .ip e.netmask, .newline]

/-- The actions of the entries: `k` reductions to `ip` have taken place. -/
def authAddAll (garbage : ℕ → BitVec 32) :
    ℕ → List ConfEntry → List AuthData → Except Halt (List AuthData)
  | _, [], aq => .ok aq
  | k, e :: later, aq => do
      let aq ← authAdd aq e.userid (ipValue e.ip (garbage k))
        (ipValue e.netmask (garbage (k + 1)))
      authAddAll garbage (k + 2) later aq

/-- What `yyparse` makes of an entry, in either of its states. -/
theorem yyparse_entry
    (garbage : ℕ → BitVec 32) (k : ℕ) (started : Bool) (e : ConfEntry)
    (later : List ConfToken) (aq : List AuthData) :
    yyparse garbage k started (e.tokens ++ later) aq =
      authAdd aq e.userid (ipValue e.ip (garbage k))
          (ipValue e.netmask (garbage (k + 1))) >>=
        yyparse garbage (k + 2) true later := by
  have hparse : yyparse garbage k started (e.tokens ++ later) aq =
      match authAdd aq e.userid (ipValue e.ip (garbage k))
          (ipValue e.netmask (garbage (k + 1))) with
      | .error reason => .error reason
      | .ok aq => yyparse garbage (k + 2) true later aq := by
    cases started <;> rfl
  rw [hparse]
  cases authAdd aq e.userid (ipValue e.ip (garbage k))
      (ipValue e.netmask (garbage (k + 1))) with
  | error reason => rfl
  | ok aq' => rfl

@[simp] theorem yyparse_newline
    (garbage : ℕ → BitVec 32) (k : ℕ) (started : Bool)
    (later : List ConfToken) (aq : List AuthData) :
    yyparse garbage k started (.newline :: later) aq =
      yyparse garbage k true later aq := by
  cases started <;> rfl

/-- The log lines of `auth_add` fit into their buffer. -/
def FitsAuthAdd (userid : List Byte) (ip netmask : BitVec 32) : Prop :=
  (authAddLine userid ip ++ inetNtoa netmask).length < 256

instance (userid : List Byte) (ip netmask : BitVec 32) :
    Decidable (FitsAuthAdd userid ip netmask) :=
  inferInstanceAs (Decidable (_ < 256))

/-- What `auth_add` stores. -/
def AuthData.of (userid : List Byte) (ip netmask : BitVec 32) : AuthData :=
  { userid := userid, ip := ip &&& netmask, netmask := netmask }

theorem authAdd_of_not_fits
    (aq : List AuthData) {userid : List Byte} {ip netmask : BitVec 32}
    (h : ¬ FitsAuthAdd userid ip netmask) :
    authAdd aq userid ip netmask = .error (.fault .bufferOverflow) := by
  by_cases hfirst : (authAddLine userid ip).length < 256
  · rw [authAdd, intoBuffer_of_lt hfirst]
    change (do
      let _ ← intoBuffer 256 (authAddLine userid ip ++ inetNtoa netmask)
      return AuthData.of userid ip netmask :: aq) = _
    rw [intoBuffer_of_not_lt h]
    rfl
  · rw [authAdd, intoBuffer_of_not_lt hfirst]
    rfl

theorem authAdd_eq_ok_iff
    {aq aq' : List AuthData} {userid : List Byte} {ip netmask : BitVec 32} :
    authAdd aq userid ip netmask = .ok aq' ↔
      FitsAuthAdd userid ip netmask ∧ aq' = .of userid ip netmask :: aq := by
  by_cases hall : FitsAuthAdd userid ip netmask
  · have hfirst : (authAddLine userid ip).length < 256 := by
      rw [FitsAuthAdd, List.length_append] at hall
      omega
    have hadd : authAdd aq userid ip netmask =
        .ok (.of userid ip netmask :: aq) := by
      rw [authAdd, intoBuffer_of_lt hfirst]
      change (do
        let _ ← intoBuffer 256 (authAddLine userid ip ++ inetNtoa netmask)
        return AuthData.of userid ip netmask :: aq) = _
      rw [intoBuffer_of_lt hall]
      rfl
    rw [hadd, Except.ok.injEq]
    simp only [hall, true_and]
    exact eq_comm
  · rw [authAdd_of_not_fits aq hall]
    simp [hall]

/-- The data which the `k`th and the following reduction to `ip` make of an
entry. -/
def ConfEntry.data (garbage : ℕ → BitVec 32) (k : ℕ) (e : ConfEntry) : AuthData :=
  .of e.userid (ipValue e.ip (garbage k)) (ipValue e.netmask (garbage (k + 1)))

def ConfEntry.datas (garbage : ℕ → BitVec 32) : ℕ → List ConfEntry → List AuthData
  | _, [] => []
  | k, e :: later => e.data garbage k :: datas garbage (k + 2) later

/-- The log lines of all the entries fit. -/
def ConfEntry.Fit (garbage : ℕ → BitVec 32) : ℕ → List ConfEntry → Prop
  | _, [] => True
  | k, e :: later =>
      FitsAuthAdd e.userid (ipValue e.ip (garbage k))
        (ipValue e.netmask (garbage (k + 1))) ∧ Fit garbage (k + 2) later

/-- The entries are stored one by one, the last one in front. -/
theorem authAddAll_eq_ok_iff
    {garbage : ℕ → BitVec 32} {k : ℕ} {es : List ConfEntry} {aq aq' : List AuthData} :
    authAddAll garbage k es aq = .ok aq' ↔
      ConfEntry.Fit garbage k es ∧ aq' = (ConfEntry.datas garbage k es).reverse ++ aq := by
  induction es generalizing k aq with
  | nil =>
      simp only [authAddAll, ConfEntry.Fit, ConfEntry.datas, Except.ok.injEq,
        List.reverse_nil, List.nil_append, true_and]
      exact eq_comm
  | cons e es ih =>
      have hcons : ∀ data : AuthData, ∀ datas : List AuthData,
          (data :: datas).reverse ++ aq = datas.reverse ++ data :: aq := by simp
      rw [authAddAll, ConfEntry.Fit, ConfEntry.datas, hcons]
      cases hfirst : authAdd aq e.userid (ipValue e.ip (garbage k))
          (ipValue e.netmask (garbage (k + 1))) with
      | error reason =>
          have hnot : ¬ FitsAuthAdd e.userid (ipValue e.ip (garbage k))
              (ipValue e.netmask (garbage (k + 1))) := by
            intro hfits
            rw [authAdd_eq_ok_iff.mpr ⟨hfits, rfl⟩] at hfirst
            cases hfirst
          constructor
          · intro h
            cases h
          · intro h
            exact absurd h.1.1 hnot
      | ok aq₁ =>
          obtain ⟨hfits, rfl⟩ := authAdd_eq_ok_iff.mp hfirst
          change authAddAll garbage (k + 2) es _ = _ ↔ _
          rw [ih]
          simp only [hfits, true_and, ConfEntry.data]

theorem ConfEntry.forall₂_datas
    (garbage : ℕ → BitVec 32) (k : ℕ) (es : List ConfEntry) :
    List.Forall₂ (fun e data => ∃ k, data = ConfEntry.data garbage k e) es
      (ConfEntry.datas garbage k es) := by
  induction es generalizing k with
  | nil => exact .nil
  | cons e es ih => exact .cons ⟨k, rfl⟩ (ih (k + 2))

end DialdTop
