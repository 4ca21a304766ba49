import DialdTop.FailedAccept
import DialdTop.LineIntegrity
import DialdTop.MonitorStream

/-!
# What the server says

Apart from the chunks of the monitor FIFO, all that the server writes to a client
is of its own making: the greeting of `port_daemon`, the refusals of
`parse_incoming` and the notices of `reauthenticate_users`.  Each of them is one
MESSAGE record.
-/

namespace DialdTop

open Program
open Relation (ReflTransGen)

/-! ## Texts -/

def messageRecord (line : Monitor.Message) : Monitor.Record := .report (.message line)

def IsMessageRecord (text : List Byte) : Prop :=
  ∃ line, text = (messageRecord line).text

theorem isMessageRecord_of_body {body : List Byte} (hne : body ≠ []) (hline : newline ∉ body) :
    IsMessageRecord (bytes "MESSAGE\n" ++ (body ++ [newline])) := by
  refine ⟨⟨body, hne, hline⟩, ?_⟩
  have hhead : bytes "MESSAGE\n" = bytes "MESSAGE" ++ [newline] := by decide
  simp [messageRecord, Monitor.Record.text, Monitor.Report.lines, hhead]

theorem newline_notMem_cutLine (text : List Byte) : newline ∉ cutLine text := by
  intro hmem
  exact not_endsLine_of_mem_cutLine hmem (Or.inl rfl)

theorem newline_notMem_cleanUserid (text : List Byte) : newline ∉ cleanUserid text := by
  intro hmem
  exact newline_notMem_cutLine text ((List.dropWhile_sublist _).subset hmem)

theorem noControlLine_isMessageRecord (line : List Byte) :
    IsMessageRecord (noControlLine line) := by
  have hhead : bytes "MESSAGE\nYou have no control access: Command \"" =
      bytes "MESSAGE\n" ++ bytes "You have no control access: Command \"" := by decide +kernel
  have htail : bytes "\" ignored\n" = bytes "\" ignored" ++ [newline] := by decide +kernel
  have hbefore : newline ∉ bytes "You have no control access: Command \"" := by decide +kernel
  have hbehind : newline ∉ bytes "\" ignored" := by decide +kernel
  have hsplit : noControlLine line = bytes "MESSAGE\n" ++
      ((bytes "You have no control access: Command \"" ++ cleanUserid line ++
        bytes "\" ignored") ++ [newline]) := by
    rw [noControlLine, hhead, htail]
    simp only [List.append_assoc]
  rw [hsplit]
  apply isMessageRecord_of_body
  · intro hempty
    have hlength := congrArg List.length hempty
    have hpositive : (bytes "\" ignored").length = 9 := by decide +kernel
    simp only [List.length_append, hpositive, List.length_nil] at hlength
    omega
  · simp only [List.mem_append, not_or]
    exact ⟨⟨hbefore, newline_notMem_cleanUserid line⟩, hbehind⟩

theorem greeting_isMessageRecord
    {userid : List Byte} (hline : newline ∉ userid) (addr : BitVec 32) (granted : Bool) :
    IsMessageRecord (greeting userid addr granted) := by
  have hhead : bytes "MESSAGE\nUser " = bytes "MESSAGE\n" ++ bytes "User " := by decide +kernel
  have hbefore : newline ∉ bytes "User " := by decide +kernel
  have hat : newline ∉ bytes "@" := by decide +kernel
  have haddr : newline ∉ inetNtoa addr := by
    have hdot : newline ∉ bytes "." := by decide +kernel
    have hdecimal : ∀ n, newline ∉ decimal n := notMem_decimal (by decide)
    simp [inetNtoa, hdot, hdecimal]
  have htail : (if granted then bytes " connected -- Full access\n"
      else bytes " connected -- Monitor access\n") =
        (if granted then bytes " connected -- Full access"
          else bytes " connected -- Monitor access") ++ [newline] := by
    cases granted with
    | true => decide +kernel
    | false => decide +kernel
  have hbehind : newline ∉ (if granted then bytes " connected -- Full access"
      else bytes " connected -- Monitor access") := by
    cases granted with
    | true => decide +kernel
    | false => decide +kernel
  have hsplit : greeting userid addr granted = bytes "MESSAGE\n" ++
      ((bytes "User " ++ userid ++ bytes "@" ++ inetNtoa addr ++
        (if granted then bytes " connected -- Full access"
          else bytes " connected -- Monitor access")) ++ [newline]) := by
    rw [greeting, hhead, htail]
    simp only [List.append_assoc]
  rw [hsplit]
  apply isMessageRecord_of_body
  · intro hempty
    have hlength := congrArg List.length hempty
    have hpositive : (bytes "@").length = 1 := by decide +kernel
    simp only [List.length_append, hpositive, List.length_nil] at hlength
    omega
  · simp only [List.mem_append, not_or]
    exact ⟨⟨⟨⟨hbefore, hline⟩, hat⟩, haddr⟩, hbehind⟩

theorem unauthorizedLine_isMessageRecord : IsMessageRecord unauthorizedLine := by
  have hsplit : unauthorizedLine = bytes "MESSAGE\n" ++
      (bytes "Unauthorized Access -- Monitor only (no ident)" ++ [newline]) := by
    decide +kernel
  rw [hsplit]
  exact isMessageRecord_of_body (by decide +kernel) (by decide +kernel)

theorem reloadLine_isMessageRecord (granted : Bool) : IsMessageRecord (reloadLine granted) := by
  have hsplit : reloadLine granted = bytes "MESSAGE\n" ++
      ((if granted then bytes "Server configuration reloaded - full access granted"
        else bytes "Server configuration reloaded - read-only access granted") ++ [newline]) := by
    cases granted with
    | true => decide +kernel
    | false => decide +kernel
  rw [hsplit]
  apply isMessageRecord_of_body
  · cases granted with
    | true => decide +kernel
    | false => decide +kernel
  · cases granted with
    | true => decide +kernel
    | false => decide +kernel

theorem newline_notMem_reapUserid (line : List Byte) : newline ∉ reapUserid line :=
  newline_notMem_cleanUserid _

theorem newline_notMem_extract
    {memory : ℕ → Byte} {sa : SockAddr} {reply : Option (List Byte)} {userid : List Byte}
    (h : extract memory sa reply = .ok userid) : newline ∉ userid := by
  unfold extract at h
  cases hcut : cutBuffer (identBuffer memory (identRequest sa) (reply.getD [])) with
  | error reason =>
      rw [hcut] at h
      cases h
  | ok line =>
      rw [hcut] at h
      cases h
      exact newline_notMem_reapUserid line

/-! ## Answers to a command -/

/-- What `parse_incoming` writes on behalf of the port `p` in the state `s`. -/
inductive Answer (s : Server) (p : Port) (line : List Byte) : List Event → Prop
  | silent : Answer s p line []
  | opened (path : List Byte) (result : WriteResult) :
      Answer s p line [.write .monitorOpen s.controlfd (monitorLine path) result]
  | control (result : WriteResult) : p.has flagWrite →
      Answer s p line [.write (.parseIncoming p) s.controlfd line result]
  | refused (result : WriteResult) : ¬ p.has flagWrite →
      Answer s p line [.write (.parseIncoming p) p.fd (noControlLine line) result]

theorem Command.answer
    {env : Env} {line : List Byte} {c : ℕ} {p : Port} {s next : Server} {closed : Bool}
    (hcommand : Command env line c p s closed next) :
    ∃ events, next.trace = s.trace ++ events ∧ Answer s p line events := by
  cases hcommand with
  | ignored => exact ⟨[], (List.append_nil _).symm, .silent⟩
  | monitorOff => exact ⟨[], (List.append_nil _).symm, .silent⟩
  | monitorOn => exact ⟨[], (List.append_nil _).symm, .silent⟩
  | monitorOpen _ _ hopen =>
      rcases monitorOpen_trace hopen with htrace | ⟨path, result, htrace⟩
      · exact ⟨[], by rw [htrace, List.append_nil]; rfl, .silent⟩
      · exact ⟨_, htrace, .opened path result⟩
  | close hclose => exact ⟨[], by rw [closePort_trace hclose, List.append_nil], .silent⟩
  | control result hwrite => exact ⟨_, rfl, .control result hwrite⟩
  | refuse result hwrite => exact ⟨_, rfl, .refused result hwrite⟩

theorem ServeEffect.answer
    {env : Env} {s next : Server} (heffect : ServeEffect env s next) :
    ∃ p ∈ s.pq, ∃ chunk events, next.trace = s.trace ++ .read p.fd chunk :: events ∧
      Answer s p (chunk.getD []) events := by
  cases heffect with
  | @hangup c p chunk hp hclose =>
      refine ⟨p, List.mem_of_getElem? hp, chunk, [], ?_, .silent⟩
      rw [closePort_trace hclose]
      rfl
  | @command c p line closed hp hcommand =>
      rcases hcommand.answer with ⟨events, htrace, hanswer⟩
      refine ⟨p, List.mem_of_getElem? hp, some line, events, ?_, ?_⟩
      · rw [htrace]
        simp [Server.log]
      · cases hanswer with
        | silent => exact .silent
        | opened path result => exact .opened path result
        | control result hwrite => exact .control result hwrite
        | refused result hwrite => exact .refused result hwrite

/-! ## Messages to one client -/

/-- What the event writes to the descriptor, if anything, is a MESSAGE record. -/
def Says (fd : Int) (event : Event) : Prop :=
  ∀ writer text result, event = .write writer fd text result → IsMessageRecord text

theorem says_read (fd target : Int) (chunk : Option (List Byte)) :
    Says fd (.read target chunk) := by
  intro writer text result heq
  cases heq

theorem says_connect (fd target : Int) (addr : BitVec 32) (success : Bool) :
    Says fd (.connect target addr success) := by
  intro writer text result heq
  cases heq

theorem says_elsewhere {fd target : Int} (hfd : target ≠ fd) (writer : Writer)
    (text : List Byte) (result : WriteResult) : Says fd (.write writer target text result) := by
  intro writer' text' result' heq
  cases heq
  exact absurd rfl hfd

theorem says_message {text : List Byte} (htext : IsMessageRecord text) (fd target : Int)
    (writer : Writer) (result : WriteResult) : Says fd (.write writer target text result) := by
  intro writer' text' result' heq
  cases heq
  exact htext

theorem Answer.says
    {s : Server} {p : Port} {line : List Byte} {events : List Event}
    (hanswer : Answer s p line events) {fd : Int} (hfd : fd ≠ s.controlfd) :
    ∀ event ∈ events, Says fd event := by
  intro event hevent
  cases hanswer with
  | silent => cases hevent
  | opened path result =>
      rw [List.mem_singleton] at hevent
      rw [hevent]
      exact says_elsewhere hfd.symm _ _ _
  | control result _ =>
      rw [List.mem_singleton] at hevent
      rw [hevent]
      exact says_elsewhere hfd.symm _ _ _
  | refused result _ =>
      rw [List.mem_singleton] at hevent
      rw [hevent]
      exact says_message (noControlLine_isMessageRecord line) _ _ _ _

theorem ReloadWrites.says
    {aq : List AuthData} {ports : List Port} {events : List Event}
    (hwrites : ReloadWrites aq ports events) (fd : Int) : ∀ event ∈ events, Says fd event := by
  induction hwrites with
  | nil => simp
  | cons hfirst _ ih =>
      rcases hfirst with ⟨granted, result, _, rfl⟩
      intro event hevent
      rcases List.mem_cons.mp hevent with rfl | hevent
      · exact says_message (reloadLine_isMessageRecord granted) _ _ _ _
      · exact ih event hevent

/-- Between the two states the descriptor receives MESSAGE records and nothing
else, when its writes succeed. -/
def Converses (fd : Int) (s t : Server) : Prop :=
  ∃ events, t.trace = s.trace ++ events ∧ ∀ event ∈ events, Says fd event

theorem converses_of_trace {fd : Int} {s t : Server} (htrace : t.trace = s.trace) :
    Converses fd s t :=
  ⟨[], by rw [htrace, List.append_nil], by simp⟩

theorem Converses.trans {fd : Int} {s t u : Server} (hst : Converses fd s t)
    (htu : Converses fd t u) : Converses fd s u := by
  rcases hst with ⟨first, hfirst, hmessages⟩
  rcases htu with ⟨second, hsecond, hmessages'⟩
  refine ⟨first ++ second, by rw [hsecond, hfirst, List.append_assoc], ?_⟩
  intro event hevent
  rcases List.mem_append.mp hevent with hevent | hevent
  · exact hmessages event hevent
  · exact hmessages' event hevent

theorem portServer_converses
    {env : Env} {fuel : ℕ} {s next : Server}
    (hrun : (portServer env fuel).run s = .ok ((), next)) {fd : Int}
    (hfd : fd ≠ s.controlfd) : Converses fd s next := by
  have hboth : next.controlfd = s.controlfd ∧ Converses fd s next := by
    have heffects := portServer_effects hrun
    clear hrun
    induction heffects with
    | refl => exact ⟨rfl, converses_of_trace rfl⟩
    | @tail mid next _ heffect ih =>
        refine ⟨heffect.descends.controlfd.trans ih.1, ih.2.trans ?_⟩
        rcases heffect.answer with ⟨p, _, chunk, events, htrace, hanswer⟩
        refine ⟨_, htrace, ?_⟩
        intro event hevent
        rcases List.mem_cons.mp hevent with rfl | hevent
        · exact says_read fd p.fd chunk
        · exact hanswer.says (by rw [ih.1]; exact hfd) event hevent
  exact hboth.2

/-- Messages to a client whose writes succeed make up a stream of records. -/
theorem delivered_of_says
    {fd : Int} {events : List Event} (hmessages : ∀ event ∈ events, Says fd event)
    (hcomplete : Complete fd events) :
    ∃ lines : List Monitor.Message,
      delivered fd events = Monitor.stream (lines.map messageRecord) := by
  induction events with
  | nil => exact ⟨[], rfl⟩
  | cons event events ih =>
      rcases ih (fun other hother => hmessages other (List.mem_cons_of_mem event hother))
        (hcomplete.of_subset (List.subset_cons_self _ _)) with ⟨lines, hlines⟩
      rw [delivered_cons, hlines]
      by_cases hwrite : ∃ writer text result, event = .write writer fd text result
      · rcases hwrite with ⟨writer, text, result, rfl⟩
        rcases hmessages _ List.mem_cons_self writer text result rfl with ⟨line, hline⟩
        have hresult := hcomplete writer text result List.mem_cons_self
        subst hresult
        refine ⟨line :: lines, ?_⟩
        rw [Event.delivered_complete, hline]
        rfl
      · refine ⟨lines, ?_⟩
        rw [Event.delivered_eq_nil fun writer text result heq => hwrite ⟨writer, text, result, heq⟩,
          List.nil_append]

end DialdTop
