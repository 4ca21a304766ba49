import DialdTop.AccessDecision
import DialdTop.Authorisation

/-!
# The exchange with identd

`port_daemon` reads the reply of identd over its own request, into a buffer
which it neither clears nor terminates.  What it makes of the buffer is
separated here from the calls around it: the user is a function of the reply
alone as soon as a byte ends the line before the buffer's old contents.
-/

namespace DialdTop

open Program

/-! ## The run of `port_daemon` -/

/-- The connection on `fd` is accepted, and identd answers on `sIdent`. -/
structure Connects (env : Env) (s : Server) (fd : Int) (sa : SockAddr) (sIdent : Int) :
    Prop where
  accept : env.accept s = some (fd, sa)
  fresh : s.fresh fd
  socket : env.socket (s.accepted fd sa) = some sIdent
  freshIdent : (s.accepted fd sa).fresh sIdent
  connect :
    env.connect
      { s.accepted fd sa with kernel := insert sIdent (s.accepted fd sa).kernel } sIdent = true

theorem Connects.withRead
    {env : Env} {s : Server} {fd : Int} {sa : SockAddr} {sIdent : Int}
    (h : Connects env s fd sa sIdent) (read : Server → Int → Option (List Byte)) :
    Connects { env with read := read } s fd sa sIdent :=
  { h with }

/-- The state after `connect`. -/
def Server.connected (s : Server) (fd : Int) (sa : SockAddr) (sIdent : Int) : Server :=
  Server.log
    { s.accepted fd sa with kernel := insert sIdent (s.accepted fd sa).kernel }
    (.connect sIdent sa.sinAddr true)

/-- The state after the request has been written. -/
def Server.requested (s : Server) (env : Env) (sIdent : Int) : Server :=
  s.log (.write .portDaemon sIdent (identRequest s.sIn.sa)
    (env.write s sIdent (identRequest s.sIn.sa)))

/-- The answer to the call of `read` in `port_daemon`. -/
def Server.reply (s : Server) (env : Env) (sIdent : Int) : Option (List Byte) :=
  (env.read (s.requested env sIdent) sIdent).map (·.take 256)

/-- The state after the reply. -/
def Server.replied (s : Server) (env : Env) (sIdent : Int) : Server :=
  { (s.requested env sIdent).log (.read sIdent (s.reply env sIdent)) with
    kernel := s.kernel.erase sIdent }

/-- The state in which the user has been found. -/
def Server.identified (s : Server) (env : Env) (sIdent : Int) (userid : List Byte) : Server :=
  { s.replied env sIdent with sIn := { s.sIn with userid := some userid } }

/-- What `port_daemon` takes for the user, for the given contents of the stack. -/
def extract (memory : ℕ → Byte) (sa : SockAddr) (reply : Option (List Byte)) :
    Except Halt (List Byte) :=
  (cutBuffer (identBuffer memory (identRequest sa) (reply.getD []))).map reapUserid

theorem identRequest_length (sa : SockAddr) : (identRequest sa).length ≤ 12 := by
  have hport : (decimal sa.sinPort.toNat).length ≤ 5 := by
    rw [decimal, List.length_map, Nat.length_toDigits_le_iff (by decide) (by decide)]
    have := sa.sinPort.isLt
    omega
  have htext : (bytes ", 1313\n").length = 7 := by decide
  rw [identRequest, List.length_append, htext]
  omega

theorem askIdent_run (env : Env) (s : Server) (sIdent : Int) :
    (askIdent env sIdent).run s =
      (extract (env.stack (s.replied env sIdent)) s.sIn.sa (s.reply env sIdent)).map
        fun userid => (userid, s.identified env sIdent userid) := by
  have hrequest : (identRequest s.sIn.sa).length < 257 := by
    have := identRequest_length s.sIn.sa
    omega
  simp only [askIdent, Prog.run_bind, run_attempt, intoBuffer_of_lt hrequest, Except.map,
    sysWrite, sysRead, sysClose, Prog.run_act, run_update, extract]
  cases hcut : cutBuffer (identBuffer (env.stack (s.replied env sIdent))
      (identRequest s.sIn.sa) ((s.reply env sIdent).getD [])) with
  | error reason => erw [hcut]
  | ok line =>
      erw [hcut]
      rfl

/-- The part of `port_daemon` behind the exchange. -/
def afterIdent (env : Env) (userid : List Byte) : Srv Unit := do
  let granted ← attempt fun s => authCheck s.aq (some userid) s.sIn.sa.sinAddr
  (greet env userid granted).within .admitting
  enqueueIncoming env

theorem portDaemon_run_connects
    {env : Env} {s : Server} {fd : Int} {sa : SockAddr} {sIdent : Int}
    (h : Connects env s fd sa sIdent) :
    let connected := s.connected fd sa sIdent
    (portDaemon env).run s =
      match extract (env.stack (connected.replied env sIdent)) sa
          (connected.reply env sIdent) with
      | .error reason => .error reason
      | .ok userid => (afterIdent env userid).run (connected.identified env sIdent userid) := by
  intro connected
  have hopen : sIdent ≠ -1 := by
    have := h.freshIdent.1
    omega
  have hconnect := h.connect
  have hprelude : (portDaemon env).run s =
      (askIdent env sIdent >>= afterIdent env).run connected := by
    rw [portDaemon, Prog.run_bind, acceptPort_run h.accept h.fresh]
    simp [allocate, h.socket, h.freshIdent, sysConnect, hopen, hconnect, afterIdent, connected,
      Server.connected]
    rfl
  have hsa : connected.sIn.sa = sa := rfl
  rw [hprelude, Prog.run_bind, askIdent_run, hsa]
  cases extract (env.stack (connected.replied env sIdent)) sa
      (connected.reply env sIdent) with
  | error reason => rfl
  | ok userid => rfl

theorem enqueueIncoming_error
    {env : Env} {s : Server} {reason : Halt}
    (hrun : (enqueueIncoming env).run s = .error reason) :
    reason = .fault .badDescriptor := by
  rw [enqueueIncoming, Prog.run_bind, Prog.run_within, run_look] at hrun
  simp only [Prog.run_bind, portEnqueue_run] at hrun
  split at hrun
  next result hresult =>
    split at hresult
    · split at hresult
      · cases hresult
      · cases hresult
        cases hrun
        rfl
    · cases hresult
  next queued next hresult =>
    cases queued with
    | true => cases hrun
    | false =>
        simp [sysClose] at hrun

/-- The greeting and the line for the log fit their buffers. -/
def NameFits (userid : List Byte) (addr : BitVec 32) (granted : Bool) : Prop :=
  (authCheckLine (some userid) addr ++ verdict granted).length + 1 ≤ 256 ∧
    (greeting userid addr granted).length + 1 ≤ 257

/-- Under the given configuration the user has full access from the address. -/
def grants (aq : List AuthData) (userid : List Byte) (addr : BitVec 32) : Bool :=
  aq.any (AuthData.admits userid addr)

/-- The state after the greeting. -/
def Server.greeted (s : Server) (env : Env) (userid : List Byte) (granted : Bool) : Server :=
  let graded := { s with
    sIn := { s.sIn with flag := if granted then flagRead ||| flagWrite else flagRead } }
  let text := greeting userid s.sIn.sa.sinAddr granted
  graded.log (.write .portDaemon s.sIn.fd text (env.write graded s.sIn.fd text))

theorem afterIdent_run_fits
    (env : Env) {userid : List Byte} {s : Server} {granted : Bool}
    (hgranted : grants s.aq userid s.sIn.sa.sinAddr = granted)
    (hfits : NameFits userid s.sIn.sa.sinAddr granted) :
    (afterIdent env userid).run s =
      (enqueueIncoming env).run (s.greeted env userid granted) := by
  have hcheck : authCheck s.aq (some userid) s.sIn.sa.sinAddr = .ok granted := by
    have hline := hfits.1
    rw [authCheck_some_eq, ← grants, hgranted, intoBuffer_of_lt (by omega)]
    rfl
  have hroom : (greeting userid s.sIn.sa.sinAddr granted).length < 257 := by
    have := hfits.2
    omega
  simp only [afterIdent, greet, Prog.run_bind, run_attempt, hcheck, Except.map, Prog.run_within,
    intoBuffer_of_lt hroom, run_update, run_look, sysWrite, Prog.run_act]
  rfl

theorem afterIdent_run_overflow
    (env : Env) {userid : List Byte} {s : Server} {granted : Bool}
    (hgranted : grants s.aq userid s.sIn.sa.sinAddr = granted)
    (hlong : ¬ NameFits userid s.sIn.sa.sinAddr granted) :
    (afterIdent env userid).run s = .error (.fault .bufferOverflow) := by
  by_cases hline :
      (authCheckLine (some userid) s.sIn.sa.sinAddr ++ verdict granted).length < 256
  · have hcheck : authCheck s.aq (some userid) s.sIn.sa.sinAddr = .ok granted := by
      rw [authCheck_some_eq, ← grants, hgranted, intoBuffer_of_lt hline]
      rfl
    have hroom : ¬ (greeting userid s.sIn.sa.sinAddr granted).length < 257 := by
      intro hroom
      exact hlong ⟨by omega, by omega⟩
    simp only [afterIdent, greet, Prog.run_bind, run_attempt, hcheck, Except.map, Prog.run_within,
      intoBuffer_of_not_lt hroom]
  · have hcheck : authCheck s.aq (some userid) s.sIn.sa.sinAddr =
        .error (.fault .bufferOverflow) := by
      rw [authCheck_some_eq, ← grants, hgranted, intoBuffer_of_not_lt hline]
      rfl
    simp only [afterIdent, Prog.run_bind, run_attempt, hcheck, Except.map]

theorem afterIdent_error
    {env : Env} {userid : List Byte} {s : Server} {reason : Halt}
    (hrun : (afterIdent env userid).run s = .error reason) :
    reason = .fault .bufferOverflow ∨ reason = .fault .badDescriptor := by
  by_cases hfits : NameFits userid s.sIn.sa.sinAddr (grants s.aq userid s.sIn.sa.sinAddr)
  · rw [afterIdent_run_fits env rfl hfits] at hrun
    exact Or.inr (enqueueIncoming_error hrun)
  · rw [afterIdent_run_overflow env rfl hfits] at hrun
    cases hrun
    exact Or.inl rfl

theorem afterIdent_overflows_iff (env : Env) (userid : List Byte) (s : Server) :
    (afterIdent env userid).run s = .error (.fault .bufferOverflow) ↔
      ¬ NameFits userid s.sIn.sa.sinAddr (grants s.aq userid s.sIn.sa.sinAddr) := by
  constructor
  · intro hrun hfits
    rw [afterIdent_run_fits env rfl hfits] at hrun
    have hreason := enqueueIncoming_error hrun
    cases hreason
  · exact afterIdent_run_overflow env rfl

/-! ## The extraction of the user -/

theorem cutBuffer_of_mem {buffer : List Byte} (h : ∃ c ∈ buffer, EndsLine c) :
    cutBuffer buffer = .ok (cutLine buffer) := by
  rw [cutBuffer, if_pos]
  rw [List.any_eq_true]
  rcases h with ⟨c, hc, hend⟩
  exact ⟨c, hc, decide_eq_true hend⟩

theorem cutBuffer_of_forall {buffer : List Byte} (h : ∀ c ∈ buffer, ¬ EndsLine c) :
    cutBuffer buffer = .error (.fault .wildPointer) := by
  rw [cutBuffer, if_neg]
  rw [Bool.not_eq_true, List.any_eq_false]
  intro c hc hend
  exact h c hc (of_decide_eq_true hend)

theorem cutLine_append {reply : List Byte} (h : ∃ c ∈ reply, EndsLine c)
    (rest : List Byte) : cutLine (reply ++ rest) = cutLine reply := by
  induction reply with
  | nil =>
      rcases h with ⟨c, hc, _⟩
      cases hc
  | cons c reply ih =>
      rw [List.cons_append, cutLine_cons, cutLine_cons]
      by_cases hend : EndsLine c
      · rw [if_pos hend, if_pos hend]
      · rw [if_neg hend, if_neg hend, ih]
        rcases h with ⟨d, hd, hdend⟩
        rw [List.mem_cons] at hd
        rcases hd with hd | hd
        · subst d
          exact absurd hdend hend
        · exact ⟨d, hd, hdend⟩

theorem identBuffer_eq (memory : ℕ → Byte) (request reply : List Byte) :
    identBuffer memory request reply =
      reply ++ (request ++ [nul] ++
        ((List.range 257).map memory).drop (request.length + 1)).drop reply.length := by
  rw [identBuffer, store, store, List.length_append, List.length_singleton]

/-- Of the old contents, at most what is left of the request is seen. -/
theorem extract_of_covered
    (memory : ℕ → Byte) (sa : SockAddr) (reply : Option (List Byte))
    (h : (∃ c ∈ reply.getD [], EndsLine c) ∨
      (reply.getD []).length ≤ (identRequest sa).length) :
    extract memory sa reply =
      .ok (reapUserid (cutLine (reply.getD [] ++
        (identRequest sa ++ [nul]).drop (reply.getD []).length))) := by
  rw [extract, identBuffer_eq]
  generalize reply.getD [] = text at h
  generalize identRequest sa = request at h
  rcases h with hend | hshort
  · have hmem : ∀ rest, ∃ c ∈ text ++ rest, EndsLine c := by
      intro rest
      rcases hend with ⟨c, hc, hc'⟩
      exact ⟨c, List.mem_append_left _ hc, hc'⟩
    rw [cutBuffer_of_mem (hmem _), cutLine_append hend, cutLine_append hend]
    rfl
  · have hleft : (request ++ [nul] ++
        ((List.range 257).map memory).drop (request.length + 1)).drop text.length =
          (request ++ [nul]).drop text.length ++
            ((List.range 257).map memory).drop (request.length + 1) := by
      rw [List.drop_append_of_le_length]
      rw [List.length_append]
      omega
    have hnul : ∃ c ∈ text ++ (request ++ [nul]).drop text.length, EndsLine c := by
      refine ⟨nul, List.mem_append_right _ ?_, Or.inr (Or.inr rfl)⟩
      rw [List.drop_append_of_le_length hshort]
      exact List.mem_append_right _ (List.mem_singleton.mpr rfl)
    have hmem : ∀ rest, ∃ c ∈ text ++ (request ++ [nul]).drop text.length ++ rest,
        EndsLine c := by
      intro rest
      rcases hnul with ⟨c, hc, hc'⟩
      exact ⟨c, List.mem_append_left _ hc, hc'⟩
    rw [hleft, ← List.append_assoc, cutBuffer_of_mem (hmem _), cutLine_append hnul]
    rfl

/-- Otherwise, it matters what lies behind the reply. -/
theorem extract_of_uncovered
    (sa : SockAddr) {reply : List Byte} (hline : ∀ c ∈ reply, ¬ EndsLine c)
    (hlong : (identRequest sa).length < reply.length) (hsize : reply.length ≤ 256) :
    (∃ userid, extract (fun _ => nul) sa (some reply) = .ok userid) ∧
      extract (fun _ => blank) sa (some reply) = .error (.fault .wildPointer) := by
  have hbehind : ∀ memory, identBuffer memory (identRequest sa) reply =
      reply ++ ((List.range 257).map memory).drop reply.length := by
    intro memory
    rw [identBuffer_eq, List.drop_append, List.drop_drop]
    have hrequest : (identRequest sa ++ [nul]).drop reply.length = [] := by
      rw [List.drop_eq_nil_iff, List.length_append, List.length_singleton]
      omega
    rw [hrequest, List.nil_append, List.length_append, List.length_singleton]
    congr 2
    omega
  constructor
  · have hnul : ∃ c ∈ reply ++ ((List.range 257).map fun _ => nul).drop reply.length,
        EndsLine c := by
      refine ⟨nul, List.mem_append_right _ ?_, Or.inr (Or.inr rfl)⟩
      rw [List.map_const', List.length_range, List.drop_replicate, List.mem_replicate]
      exact ⟨by omega, rfl⟩
    rw [extract, Option.getD_some, hbehind, cutBuffer_of_mem hnul]
    exact ⟨_, rfl⟩
  · rw [extract, Option.getD_some, hbehind, cutBuffer_of_forall]
    · rfl
    · intro c hc
      rw [List.mem_append] at hc
      rcases hc with hc | hc
      · exact hline c hc
      · have hmem := List.mem_of_mem_drop hc
        rw [List.mem_map] at hmem
        rcases hmem with ⟨_, _, hc⟩
        rw [← hc]
        decide

/-- The buffer `line` of `port_daemon` is fresh from the stack with the given
contents. -/
def Env.withStack (env : Env) (memory : ℕ → Byte) : Env :=
  { env with stack := fun _ => memory }

theorem portDaemon_run_withStack
    {env : Env} {s : Server} {fd : Int} {sa : SockAddr} {sIdent : Int}
    (h : Connects env s fd sa sIdent) (memory : ℕ → Byte) :
    (portDaemon (env.withStack memory)).run s =
      match extract memory sa ((s.connected fd sa sIdent).reply env sIdent) with
      | .error reason => .error reason
      | .ok userid =>
          (afterIdent env userid).run
            ((s.connected fd sa sIdent).identified env sIdent userid) := by
  have h' : Connects (env.withStack memory) s fd sa sIdent := { h with }
  exact portDaemon_run_connects h'

/-- The user and the rights of the new port. -/
def identity (result : Except Halt (Unit × Server)) :
    Except Halt (Option (List Byte) × BitVec 32) :=
  result.map fun r => (r.2.sIn.userid, r.2.sIn.flag)

theorem identity_determined_iff
    {env : Env} {s : Server} {fd : Int} {sa : SockAddr} {sIdent : Int}
    (h : Connects env s fd sa sIdent) {reply : Option (List Byte)}
    (hreply : (s.connected fd sa sIdent).reply env sIdent = reply) :
    (∀ memory memory',
      identity ((portDaemon (env.withStack memory)).run s) =
        identity ((portDaemon (env.withStack memory')).run s)) ↔
      (∃ c ∈ reply.getD [], EndsLine c) ∨
        (reply.getD []).length ≤ (identRequest sa).length := by
  constructor
  · intro hsame
    by_contra hcovered
    rw [not_or, not_exists] at hcovered
    rcases hcovered with ⟨hline, hlong⟩
    cases reply with
    | none => simp at hlong
    | some reply =>
        rw [Option.getD_some] at hline hlong
        have hsize : reply.length ≤ 256 := by
          rw [Server.reply, Option.map_eq_some_iff] at hreply
          rcases hreply with ⟨chunk, _, hchunk⟩
          rw [← hchunk]
          exact List.length_take_le 256 chunk
        have hopen : ∀ c ∈ reply, ¬ EndsLine c := by
          intro c hc hend
          exact hline c ⟨hc, hend⟩
        rcases extract_of_uncovered sa hopen (by omega) hsize with ⟨⟨userid, hnul⟩, hwild⟩
        have hrun := hsame (fun _ => nul) fun _ => blank
        rw [portDaemon_run_withStack h, portDaemon_run_withStack h, hreply, hnul, hwild]
          at hrun
        cases hafter : (afterIdent env userid).run
            ((s.connected fd sa sIdent).identified env sIdent userid) with
        | error reason =>
            simp only [hafter, identity, Except.map, Except.error.injEq] at hrun
            rcases afterIdent_error hafter with hreason | hreason
            · rw [hrun] at hreason
              cases hreason
            · rw [hrun] at hreason
              cases hreason
        | ok result =>
            simp only [hafter, identity, Except.map] at hrun
            cases hrun
  · intro hcovered memory memory'
    rw [portDaemon_run_withStack h, portDaemon_run_withStack h, hreply,
      extract_of_covered memory sa reply hcovered,
      extract_of_covered memory' sa reply hcovered]

theorem connects_trusting :
    Connects .trusting (finalState ((start .trusting).run .blank)) 3 ⟨0x7f000001, 1024⟩ 4 where
  accept := by decide +kernel
  fresh := by decide +kernel
  socket := by decide +kernel
  freshIdent := by decide +kernel
  connect := rfl

theorem identity_determined_iff_trusting :
    let started := finalState ((start .trusting).run .blank)
    identity ((portDaemon (Env.trusting.withStack fun _ => nul)).run started) =
      identity ((portDaemon (Env.trusting.withStack fun _ => blank)).run started) := by
  refine (identity_determined_iff connects_trusting rfl).mpr (Or.inl ⟨newline, ?_, ?_⟩) _ _
  · decide +kernel
  · decide

/-- A reply without an end of line, behind which a digit is left on the stack. -/
theorem exists_stale_identity :
    ∃ env s fd sa sIdent reply memory memory',
      Connects env s fd sa sIdent ∧
      (s.connected fd sa sIdent).reply env sIdent = some reply ∧ reply.length ≤ 256 ∧
      identity ((portDaemon (env.withStack memory)).run s) =
        .ok (some (bytes "alice"), flagRead ||| flagWrite) ∧
      identity ((portDaemon (env.withStack memory')).run s) =
        .ok (some (bytes "alice2"), flagRead) := by
  let reply := bytes "1024, 1313 : USERID : UNIX : alice"
  let env : Env := { Env.trusting with read := fun _ _ => some reply }
  let started := finalState ((start .trusting).run .blank)
  have hconnects : Connects env started 3 ⟨0x7f000001, 1024⟩ 4 :=
    connects_trusting.withRead fun _ _ => some reply
  refine ⟨env, started, 3, ⟨0x7f000001, 1024⟩, 4, reply, fun _ => nul,
    fun i => if i = reply.length then 50 else nul, hconnects, ?_, ?_, ?_, ?_⟩
  · decide +kernel
  · decide
  · decide +kernel
  · decide +kernel

/-! ## The length of a user name -/

/-- The text behind the next colon. -/
def afterColon (text : List Byte) : List Byte :=
  (text.dropWhile fun c => c ≠ colon).drop 1

/-- The text behind the third colon of the first line, without leading blanks. -/
def userField (reply : List Byte) : List Byte :=
  (afterColon (afterColon (afterColon (cutLine reply)))).dropWhile fun c => c = blank

theorem afterColon_sublist (text : List Byte) : (afterColon text).Sublist text :=
  (List.drop_sublist 1 _).trans (List.dropWhile_sublist _)

theorem cutLine_of_forall {text : List Byte} (h : ∀ c ∈ text, ¬ EndsLine c) :
    cutLine text = text := by
  rw [cutLine, List.takeWhile_eq_self_iff]
  intro c hc
  have hfree := (not_endsLine_iff c).mp (h c hc)
  simpa using hfree

theorem not_endsLine_of_mem_cutLine {text : List Byte} {c : Byte} (hc : c ∈ cutLine text) :
    ¬ EndsLine c := by
  have hfree := List.mem_takeWhile_imp hc
  rw [not_endsLine_iff]
  simpa using hfree

theorem skipField_eq_afterColon {text : List Byte} (h : ∀ c ∈ text, ¬ EndsLine c) :
    skipField text = afterColon text := by
  have hnul : ∀ c ∈ text, c ≠ nul := by
    intro c hc heq
    exact h c hc (Or.inr (Or.inr heq))
  have hdrop : (text.dropWhile fun c => c ≠ colon ∧ c ≠ nul) =
      text.dropWhile fun c => c ≠ colon := by
    clear h
    induction text with
    | nil => rfl
    | cons c text ih =>
        rw [List.forall_mem_cons] at hnul
        simp only [List.dropWhile_cons, ih hnul.2, hnul.1, ne_eq, not_false_eq_true, and_true]
  have hsub : (text.dropWhile fun c => c ≠ colon).Sublist text := List.dropWhile_sublist _
  rw [skipField, afterColon, hdrop]
  cases hrest : text.dropWhile fun c => c ≠ colon with
  | nil => rfl
  | cons c rest =>
      have hc : c ≠ nul := by
        apply hnul
        apply hsub.subset
        rw [hrest]
        exact List.mem_cons_self
      simp [hc]

theorem reapUserid_cutLine (reply : List Byte) :
    reapUserid (cutLine reply) = userField reply := by
  have hzero : ∀ c ∈ cutLine reply, ¬ EndsLine c := fun _ => not_endsLine_of_mem_cutLine
  have hone : ∀ c ∈ afterColon (cutLine reply), ¬ EndsLine c := by
    intro c hc
    exact hzero c ((afterColon_sublist _).subset hc)
  have htwo : ∀ c ∈ afterColon (afterColon (cutLine reply)), ¬ EndsLine c := by
    intro c hc
    exact hone c ((afterColon_sublist _).subset hc)
  have hthree : ∀ c ∈ afterColon (afterColon (afterColon (cutLine reply))),
      ¬ EndsLine c := by
    intro c hc
    exact htwo c ((afterColon_sublist _).subset hc)
  rw [reapUserid, skipField_eq_afterColon hzero, skipField_eq_afterColon hone,
    skipField_eq_afterColon htwo, cutLine_of_forall hthree, cleanUserid,
    cutLine_of_forall hthree, userField]

theorem extract_of_ended
    (memory : ℕ → Byte) (sa : SockAddr) {reply : List Byte} (h : ∃ c ∈ reply, EndsLine c) :
    extract memory sa (some reply) = .ok (userField reply) := by
  rw [extract_of_covered memory sa (some reply) (Or.inl h), Option.getD_some,
    cutLine_append h, reapUserid_cutLine]

/-- The most bytes a user name and the printed address may have together. -/
def nameRoom (granted : Bool) : ℕ :=
  if granted then 216 else 213

theorem nameFits_iff (userid : List Byte) (addr : BitVec 32) (granted : Bool) :
    NameFits userid addr granted ↔
      userid.length + (inetNtoa addr).length ≤ nameRoom granted := by
  have htexts : (bytes "Checking user: ").length = 15 ∧ (bytes "@").length = 1 ∧
      (bytes " -- ").length = 4 ∧ (bytes "full access").length = 11 ∧
      (bytes "read-only access").length = 16 ∧ (bytes "MESSAGE\nUser ").length = 13 ∧
      (bytes " connected -- Full access\n").length = 26 ∧
      (bytes " connected -- Monitor access\n").length = 29 := by
    decide
  cases granted with
  | true =>
      simp only [NameFits, authCheckLine, verdict, greeting, nameRoom, Option.getD_some,
        List.length_append, htexts, if_true]
      omega
  | false =>
      simp only [NameFits, authCheckLine, verdict, greeting, nameRoom, Option.getD_some,
        List.length_append, htexts, Bool.false_eq_true, if_false]
      omega

theorem fitsAuthAdd_iff (userid : List Byte) (ip netmask : BitVec 32) :
    FitsAuthAdd userid ip netmask ↔
      userid.length + (inetNtoa ip).length + (inetNtoa netmask).length ≤ 241 := by
  have htexts : (bytes "Added user: ").length = 12 ∧ (bytes "@").length = 1 ∧
      (bytes "/").length = 1 := by
    decide
  simp only [FitsAuthAdd, authAddLine, List.length_append, htexts]
  omega

theorem portDaemon_overflows_iff
    {env : Env} {s : Server} {fd : Int} {sa : SockAddr} {sIdent : Int}
    (h : Connects env s fd sa sIdent) {reply : List Byte}
    (hreply : (s.connected fd sa sIdent).reply env sIdent = some reply)
    (hend : ∃ c ∈ reply, EndsLine c) :
    (portDaemon env).run s = .error (.fault .bufferOverflow) ↔
      ¬ NameFits (userField reply) sa.sinAddr (grants s.aq (userField reply) sa.sinAddr) := by
  have haddr : ((s.connected fd sa sIdent).identified env sIdent
      (userField reply)).sIn.sa.sinAddr = sa.sinAddr := rfl
  have haq : ((s.connected fd sa sIdent).identified env sIdent
      (userField reply)).aq = s.aq := by
    simp only [Server.identified, Server.replied, Server.requested, Server.connected,
      Server.accepted, Server.log]
  have hrun := portDaemon_run_connects h
  simp only [hreply, extract_of_ended _ sa hend] at hrun
  rw [hrun, afterIdent_overflows_iff, haddr, haq]

theorem authAdd_overflows_iff
    (aq : List AuthData) (userid : List Byte) (ip netmask : BitVec 32) :
    authAdd aq userid ip netmask = .error (.fault .bufferOverflow) ↔
      ¬ FitsAuthAdd userid ip netmask := by
  constructor
  · intro hfault hfits
    have hadd := authAdd_eq_ok_iff.mpr ⟨hfits, (rfl : AuthData.of userid ip netmask :: aq = _)⟩
    rw [hfault] at hadd
    cases hadd
  · exact authAdd_of_not_fits aq

theorem names_fit_iff
    (aq : List AuthData) (userid : List Byte) (ip netmask : BitVec 32) :
    (∀ env s fd sa sIdent reply, Connects env s fd sa sIdent →
      (s.connected fd sa sIdent).reply env sIdent = some reply →
      (∃ c ∈ reply, EndsLine c) →
        (NameFits (userField reply) sa.sinAddr (grants s.aq (userField reply) sa.sinAddr) ↔
          (userField reply).length + (inetNtoa sa.sinAddr).length ≤
            nameRoom (grants s.aq (userField reply) sa.sinAddr)) ∧
          ((portDaemon env).run s = .error (.fault .bufferOverflow) ↔
            nameRoom (grants s.aq (userField reply) sa.sinAddr) <
              (userField reply).length + (inetNtoa sa.sinAddr).length)) ∧
      (FitsAuthAdd userid ip netmask ↔
        userid.length + (inetNtoa ip).length + (inetNtoa netmask).length ≤ 241) ∧
      (authAdd aq userid ip netmask = .error (.fault .bufferOverflow) ↔
        241 < userid.length + (inetNtoa ip).length + (inetNtoa netmask).length) := by
  constructor
  · intro env s fd sa sIdent reply h hreply hend
    refine ⟨nameFits_iff _ _ _, ?_⟩
    rw [portDaemon_overflows_iff h hreply hend, nameFits_iff, Nat.not_le]
  · refine ⟨fitsAuthAdd_iff _ _ _, ?_⟩
    rw [authAdd_overflows_iff, fitsAuthAdd_iff, Nat.not_le]

theorem names_fit_iff_trusting :
    (portDaemon .trusting).run (finalState ((start .trusting).run .blank)) ≠
      .error (.fault .bufferOverflow) := by
  have hfits := (names_fit_iff [] [] 0 0).1 .trusting _ 3 ⟨0x7f000001, 1024⟩ 4
    (bytes "1024, 1313 : USERID : UNIX : alice\r\n") connects_trusting (by decide +kernel)
    ⟨newline, by decide, by decide⟩
  rw [ne_eq, hfits.2]
  decide +kernel

/-- Names of 220 letters, from identd and in the configuration. -/
theorem exists_long_name :
    (∃ env s fd sa sIdent reply, Connects env s fd sa sIdent ∧
      (s.connected fd sa sIdent).reply env sIdent = some reply ∧ reply.length ≤ 256 ∧
      (∃ c ∈ reply, EndsLine c) ∧
      ¬ NameFits (userField reply) sa.sinAddr (grants s.aq (userField reply) sa.sinAddr) ∧
      (portDaemon env).run s = .error (.fault .bufferOverflow)) ∧
      ∃ userid ip netmask, IsUserid userid ∧ ¬ FitsAuthAdd userid ip netmask ∧
        authAdd [] userid ip netmask = .error (.fault .bufferOverflow) := by
  let name : List Byte := List.replicate 220 97
  let reply := bytes "1024, 1313 : USERID : UNIX : " ++ name ++ [carriageReturn, newline]
  let env : Env := { Env.trusting with read := fun _ _ => some reply }
  let started := finalState ((start .trusting).run .blank)
  have hconnects : Connects env started 3 ⟨0x7f000001, 1024⟩ 4 :=
    connects_trusting.withRead fun _ _ => some reply
  have hreply : (started.connected 3 ⟨0x7f000001, 1024⟩ 4).reply env 4 = some reply := by
    decide +kernel
  have hend : ∃ c ∈ reply, EndsLine c := ⟨newline, by simp [reply], by decide⟩
  have hlong : ¬ NameFits (userField reply) 0x7f000001
      (grants started.aq (userField reply) 0x7f000001) := by
    rw [nameFits_iff]
    decide +kernel
  have hconf : ¬ FitsAuthAdd name 0x0a000001 0xffffffff := by
    rw [fitsAuthAdd_iff]
    decide +kernel
  refine ⟨⟨env, started, 3, ⟨0x7f000001, 1024⟩, 4, reply, hconnects, hreply,
    by decide +kernel, hend, hlong, ?_⟩, name, 0x0a000001, 0xffffffff, ?_, hconf,
    authAdd_of_not_fits [] hconf⟩
  · exact (portDaemon_overflows_iff hconnects hreply hend).mpr hlong
  · rw [isUserid_iff]
    refine ⟨97, List.replicate 219 97, rfl, by decide, ?_⟩
    intro d hd
    rw [List.eq_of_mem_replicate hd]
    decide

end DialdTop
