import DialdTop.IdentExchange
import Mathlib.Data.List.DropRight

/-!
# The user in an ident reply

`reap_userid` takes what stands behind the third colon of the reply, whatever
the fields in front of it are.  On a positive reply this is the user; but the
type of the reply, its second field, is skipped like the others.
-/

namespace DialdTop

open Program

/-! ## Positive replies -/

/-- A field of a reply in front of the user. -/
structure ReplyField where
  text : List Byte
  free : ∀ c ∈ text, c ≠ colon ∧ ¬ EndsLine c

/-- Three fields and the user, up to the byte which ends the line. -/
structure PositiveReply where
  first : ReplyField
  second : ReplyField
  third : ReplyField
  user : List Byte
  oneLine : ∀ c ∈ user, ¬ EndsLine c
  terminator : Byte
  ends : EndsLine terminator

def PositiveReply.line (r : PositiveReply) : List Byte :=
  r.first.text ++ colon :: (r.second.text ++ colon :: (r.third.text ++ colon :: r.user))

theorem PositiveReply.line_free (r : PositiveReply) : ∀ c ∈ r.line, ¬ EndsLine c := by
  have hcolon : ¬ EndsLine colon := by decide
  simp only [PositiveReply.line, List.forall_mem_append, List.forall_mem_cons]
  exact ⟨fun c hc => (r.first.free c hc).2, hcolon, fun c hc => (r.second.free c hc).2, hcolon,
    fun c hc => (r.third.free c hc).2, hcolon, r.oneLine⟩

theorem ReplyField.colon_notMem (f : ReplyField) : colon ∉ f.text := by
  intro hmem
  exact (f.free colon hmem).1 rfl

theorem cutLine_append_cons
    {line : List Byte} (h : ∀ c ∈ line, ¬ EndsLine c) {c : Byte} (hc : EndsLine c)
    (rest : List Byte) : cutLine (line ++ c :: rest) = line := by
  induction line with
  | nil => rw [List.nil_append, cutLine_cons, if_pos hc]
  | cons b line ih =>
      rw [List.forall_mem_cons] at h
      rw [List.cons_append, cutLine_cons, if_neg h.1, ih h.2]

theorem afterColon_append {text : List Byte} (h : colon ∉ text) (rest : List Byte) :
    afterColon (text ++ colon :: rest) = rest := by
  have hfree : ∀ c ∈ text, decide (c ≠ colon) = true := by
    intro c hc
    rw [decide_eq_true_eq]
    intro heq
    subst c
    exact h hc
  rw [afterColon, List.dropWhile_append_of_pos hfree]
  simp

theorem afterColon_of_notMem {text : List Byte} (h : colon ∉ text) : afterColon text = [] := by
  have hnil : (text.dropWhile fun c => c ≠ colon) = [] := by
    rw [List.dropWhile_eq_nil_iff]
    intro c hc
    rw [decide_eq_true_eq]
    intro heq
    subst c
    exact h hc
  rw [afterColon, hnil]
  rfl

theorem PositiveReply.userField_line (r : PositiveReply) (rest : List Byte) :
    userField (r.line ++ r.terminator :: rest) = r.user.dropWhile fun c => c = blank := by
  rw [userField, cutLine_append_cons r.line_free r.ends, PositiveReply.line,
    afterColon_append r.first.colon_notMem, afterColon_append r.second.colon_notMem,
    afterColon_append r.third.colon_notMem]

/-! ## Replies with a field missing -/

theorem iterate_afterColon_eq_nil {n : ℕ} {text : List Byte} (h : text.count colon < n) :
    afterColon^[n] text = [] := by
  induction n generalizing text with
  | zero => omega
  | succ n ih =>
      rw [Function.iterate_succ_apply]
      by_cases hmem : colon ∈ text
      · rcases List.eq_append_cons_of_mem hmem with ⟨field, rest, htext, hfield⟩
        subst text
        rw [afterColon_append hfield]
        apply ih
        rw [List.count_append, List.count_cons_self] at h
        omega
      · rw [afterColon_of_notMem hmem]
        exact Function.iterate_fixed rfl n

theorem userField_of_missing {reply : List Byte} (h : (cutLine reply).count colon < 3) :
    userField reply = [] := by
  have hnil : afterColon (afterColon (afterColon (cutLine reply))) = [] :=
    iterate_afterColon_eq_nil h
  rw [userField, hnil]
  rfl

theorem IsUserid.ne_nil {text : List Byte} (h : IsUserid text) : text ≠ [] := by
  rcases (isUserid_iff text).mp h with ⟨c, v, htext, _, _⟩
  rw [htext]
  exact List.cons_ne_nil c v

theorem authCheck_nil_userid
    {aq : List AuthData} (haq : ∀ data ∈ aq, IsUserid data.userid) (addr : BitVec 32) :
    authCheck aq (some []) addr = .ok false := by
  have hfits : FitsAuthCheck [] addr := by
    have haddr := inetNtoa_length_le addr
    have htexts : (bytes "Checking user: ").length = 15 ∧ (bytes "@").length = 1 ∧
        (bytes " -- ").length = 4 ∧ (verdict false).length = 16 := by decide
    simp only [FitsAuthCheck, authCheckLine, Option.getD_some, List.length_append, htexts,
      List.length_nil]
    omega
  have hnone : aq.any (AuthData.admits [] addr) = false := by
    rw [List.any_eq_false]
    intro data hdata hadmits
    have huserid := haq data hdata
    rw [AuthData.admits, decide_eq_true_eq] at hadmits
    have hequal : EqIgnoringCase data.userid [] :=
      (strcasecmp_eq_zero_iff huserid.nul_notMem List.not_mem_nil).mp hadmits.1
    exact huserid.ne_nil (List.map_eq_nil_iff.mp hequal)
  rw [authCheck_some hfits, hnone]

theorem extraction_of_reply :
    (∀ (r : PositiveReply) (rest : List Byte),
      (cutBuffer (r.line ++ r.terminator :: rest)).map reapUserid =
        .ok (r.user.dropWhile fun c => c = blank)) ∧
      ∀ buffer : List Byte, (∃ c ∈ buffer, EndsLine c) → (cutLine buffer).count colon < 3 →
        (cutBuffer buffer).map reapUserid = .ok [] ∧
          ∀ aq : List AuthData, (∀ data ∈ aq, IsUserid data.userid) →
            ∀ addr, authCheck aq (some []) addr = .ok false := by
  constructor
  · intro r rest
    have hend : ∃ c ∈ r.line ++ r.terminator :: rest, EndsLine c :=
      ⟨r.terminator, List.mem_append_right _ List.mem_cons_self, r.ends⟩
    rw [cutBuffer_of_mem hend, Except.map, reapUserid_cutLine, r.userField_line]
  · intro buffer hend hmissing
    rw [cutBuffer_of_mem hend, Except.map, reapUserid_cutLine, userField_of_missing hmissing]
    exact ⟨rfl, fun aq haq => authCheck_nil_userid haq⟩

/-- A positive reply with a colon in the user. -/
def PositiveReply.colonized : PositiveReply where
  first := ⟨bytes "1024, 1313 ", by decide +kernel⟩
  second := ⟨bytes " USERID ", by decide +kernel⟩
  third := ⟨bytes " UNIX ", by decide +kernel⟩
  user := bytes "   bob:x "
  oneLine := by decide +kernel
  terminator := carriageReturn
  ends := by decide

/-- The user keeps the colon and the blank behind it, and in a reply which ends
before the user there is none. -/
theorem extraction_of_reply_colonized :
    (cutBuffer (bytes "1024, 1313 : USERID : UNIX :   bob:x \r\n")).map reapUserid =
        .ok (bytes "bob:x ") ∧
      (cutBuffer (bytes "1024, 1313 : USERID : UNIX\r\n: bob")).map reapUserid = .ok [] := by
  have huser := extraction_of_reply.1 .colonized [newline]
  have hmissing := extraction_of_reply.2 (bytes "1024, 1313 : USERID : UNIX\r\n: bob")
    ⟨newline, by decide, by decide⟩ (by decide)
  have hline : PositiveReply.colonized.line ++ PositiveReply.colonized.terminator :: [newline] =
      bytes "1024, 1313 : USERID : UNIX :   bob:x \r\n" := by
    decide
  have hblanks : (PositiveReply.colonized.user.dropWhile fun c => c = blank) = bytes "bob:x " := by
    decide
  rw [hline, hblanks] at huser
  exact ⟨huser, hmissing.1⟩

/-! ## Other replies -/

/-- The second field of the first line, stripped of blanks. -/
def responseType (reply : List Byte) : List Byte :=
  (((afterColon (cutLine reply)).takeWhile fun c => c ≠ colon).dropWhile
    fun c => c = blank).rdropWhile fun c => c = blank

/-- The contents of `line` when the reply has been read. -/
def Server.identText (s : Server) (env : Env) (sIdent : Int) : List Byte :=
  identBuffer (env.stack (s.replied env sIdent)) (identRequest s.sIn.sa)
    ((s.reply env sIdent).getD [])

theorem extract_eq_ok
    {memory : ℕ → Byte} {sa : SockAddr} {reply : Option (List Byte)} {userid : List Byte}
    (h : extract memory sa reply = .ok userid) :
    userid = userField (identBuffer memory (identRequest sa) (reply.getD [])) := by
  unfold extract cutBuffer at h
  split at h
  · rw [Except.map, reapUserid_cutLine, Except.ok.injEq] at h
    exact h.symm
  · cases h

theorem afterIdent_write
    {env : Env} {userid : List Byte} {s next : Server} {u : Unit}
    (hrun : (afterIdent env userid).run s = .ok (u, next)) :
    next.sIn.has flagWrite = grants s.aq userid s.sIn.sa.sinAddr := by
  by_cases hfits : NameFits userid s.sIn.sa.sinAddr (grants s.aq userid s.sIn.sa.sinAddr)
  · rw [afterIdent_run_fits env rfl hfits] at hrun
    rw [(enqueueIncoming_cases hrun).sIn]
    have hflag : ∀ granted : Bool,
        decide ((if granted then flagRead ||| flagWrite else flagRead) &&& flagWrite ≠ 0) =
          granted := by decide
    exact hflag _
  · rw [afterIdent_run_overflow env rfl hfits] at hrun
    cases hrun

theorem portDaemon_write
    {env : Env} {s next : Server} {fd : Int} {sa : SockAddr} {sIdent : Int} {u : Unit}
    (h : Connects env s fd sa sIdent) (hrun : (portDaemon env).run s = .ok (u, next)) :
    next.sIn.has flagWrite =
      grants s.aq (userField ((s.connected fd sa sIdent).identText env sIdent)) sa.sinAddr := by
  rw [portDaemon_run_connects h] at hrun
  cases hextract : extract (env.stack ((s.connected fd sa sIdent).replied env sIdent)) sa
      ((s.connected fd sa sIdent).reply env sIdent) with
  | error reason =>
      rw [hextract] at hrun
      cases hrun
  | ok userid =>
      simp only [hextract] at hrun
      have hsa : (s.connected fd sa sIdent).sIn.sa = sa := rfl
      have huserid : userid = userField ((s.connected fd sa sIdent).identText env sIdent) := by
        rw [Server.identText, hsa]
        exact extract_eq_ok hextract
      have haq : ((s.connected fd sa sIdent).identified env sIdent userid).aq = s.aq := by
        simp only [Server.identified, Server.replied, Server.requested, Server.connected,
          Server.accepted, Server.log]
      have haddr : ((s.connected fd sa sIdent).identified env sIdent userid).sIn.sa = sa := rfl
      rw [← huserid, ← haq, afterIdent_write hrun, haddr]

/-- A reply which is no USERID reply sets no `FLAG_WRITE` if and only if no entry
admits the text behind its third colon. -/
theorem onlyUserid_iff
    {env : Env} {s next : Server} {fd : Int} {sa : SockAddr} {sIdent : Int}
    (h : Connects env s fd sa sIdent) (hrun : (portDaemon env).run s = .ok ((), next)) :
    let connected := s.connected fd sa sIdent
    let reply := (connected.reply env sIdent).getD []
    (responseType reply ≠ bytes "USERID" → next.sIn.has flagWrite = false) ↔
      (responseType reply = bytes "USERID" ∨
        ∀ data ∈ s.aq,
          data.admits (userField (connected.identText env sIdent)) sa.sinAddr = false) := by
  intro connected reply
  have hwrite : next.sIn.has flagWrite = false ↔ ∀ data ∈ s.aq,
      data.admits (userField (connected.identText env sIdent)) sa.sinAddr = false := by
    rw [portDaemon_write h hrun, grants, List.any_eq_false]
    simp only [Bool.not_eq_true, connected]
  rw [hwrite, or_iff_not_imp_left]

/-- identd answers every request with the text. -/
def Env.answered (text : String) : Env :=
  { Env.trusting with read := fun _ _ => some (bytes text) }

theorem connects_answered (text : String) :
    Connects (.answered text) (finalState ((start .trusting).run .blank)) 3 ⟨0x7f000001, 1024⟩ 4 :=
  connects_trusting.withRead fun _ _ => some (bytes text)

theorem onlyUserid_iff_answered :
    (finalState ((portDaemon (.answered "1024, 1313 : ERROR : NO-USER\r\n")).run
      (finalState ((start .trusting).run .blank)))).sIn.has flagWrite = false := by
  have hrun : (portDaemon (.answered "1024, 1313 : ERROR : NO-USER\r\n")).run
      (finalState ((start .trusting).run .blank)) =
        .ok ((), finalState ((portDaemon (.answered "1024, 1313 : ERROR : NO-USER\r\n")).run
          (finalState ((start .trusting).run .blank)))) := by
    decide +kernel
  refine (onlyUserid_iff (connects_answered _) hrun).mpr (Or.inr ?_) ?_
  · decide +kernel
  · decide +kernel

/-- An error reply whose additional information has a colon in it. -/
theorem exists_authorised_error :
    ∃ env s fd sa sIdent next reply p,
      Connects env s fd sa sIdent ∧ (portDaemon env).run s = .ok ((), next) ∧
        (s.connected fd sa sIdent).reply env sIdent = some reply ∧
        responseType reply = bytes "ERROR" ∧ next.pq = [p] ∧ next.sIn = p ∧
        p.has flagWrite = true := by
  let env : Env := .answered "1024, 1313 : ERROR : X-NONE : alice\r\n"
  let started := finalState ((start .trusting).run .blank)
  let admitted := finalState ((portDaemon env).run started)
  refine ⟨env, started, 3, ⟨0x7f000001, 1024⟩, 4, admitted,
    bytes "1024, 1313 : ERROR : X-NONE : alice\r\n", admitted.sIn, connects_answered _, ?_, ?_,
    ?_, ?_, rfl, ?_⟩
  · decide +kernel
  · decide +kernel
  · decide
  · decide +kernel
  · decide +kernel

end DialdTop
