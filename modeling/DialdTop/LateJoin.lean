import DialdTop.LRStacks
import DialdTop.MonitorStream

/-!
# Joining the stream within a record

A client which begins to read behind the first line of a record finds lines which
belong to no record.  The grammar has a `belch` for each of their tokens, so that
the parser goes over them and loses nothing of the records behind.  The text of a
message is the exception, as its line may have any tokens in it.
-/

namespace DialdTop

open Scanner

namespace Monitor

/-! ## Lines out of their record -/

/-- A line of a record behind its first one, other than the text of a message. -/
inductive StrayLine
  | number (n : Numeral)
  | time (t : Clock)
  | word (w : Word)
  | address (q : Quad)
  | packet (p : Packet)
  | endqueue

def StrayLine.text : StrayLine → List Byte
  | .number n => n.digits
  | .time t => t.text
  | .word w => w.text
  | .address q => q.text
  | .packet p => p.line
  | .endqueue => bytes "END QUEUE"

def StrayLine.tokens : StrayLine → List Token
  | .number n => lineTokens (numToken n)
  | .time t => lineTokens (timeToken t)
  | .word w => lineTokens (stringToken w.text)
  | .address q => lineTokens (ipToken q)
  | .packet p => p.tokens
  | .endqueue => lineTokens (symbolToken .endqueue)

/-- The lines of a record without their newlines. -/
def Record.lines : Record → List (List Byte)
  | .report r => r.lines
  | .queue packets => bytes "QUEUE" :: packets.map Packet.line ++ [bytes "END QUEUE"]

def Record.IsMessage (r : Record) : Prop := ∃ line, r = .report (.message line)

/-- The lines behind the first one. -/
theorem Record.exists_strayLines {r : Record} (hr : ¬ r.IsMessage) :
    ∃ strays : List StrayLine, r.lines.tail = strays.map StrayLine.text := by
  cases r with
  | report r =>
      cases r with
      | status up force im imItm imTm imFuzz imTo forceTo to_ =>
          exact ⟨[.number up, .number force, .number im, .number imItm, .number imTm,
            .number imFuzz, .time imTo, .time forceTo, .time to_], rfl⟩
      | load itxtotal irxtotal => exact ⟨[.number itxtotal, .number irxtotal], rfl⟩
      | interface name localIp remoteIp =>
          exact ⟨[.word name, .address localIp, .address remoteIp], rfl⟩
      | state name => exact ⟨[.word name], rfl⟩
      | message line => exact absurd ⟨line, rfl⟩ hr
  | queue packets =>
      refine ⟨packets.map .packet ++ [.endqueue], ?_⟩
      simp [Record.lines, StrayLine.text, Function.comp_def]

theorem Record.exists_strayLines_suffix
    {r : Record} (hr : ¬ r.IsMessage) {missed tail : List (List Byte)}
    (hlines : r.lines = missed ++ tail) (hmissed : missed ≠ []) :
    ∃ strays : List StrayLine, tail = strays.map StrayLine.text := by
  rcases r.exists_strayLines hr with ⟨strays, hstrays⟩
  cases missed with
  | nil => exact absurd rfl hmissed
  | cons first missed =>
      rw [hlines, List.cons_append, List.tail_cons] at hstrays
      rcases List.append_eq_map_iff.mp hstrays with ⟨_, later, _, _, htail⟩
      exact ⟨later, htail.symm⟩

theorem StrayLine.scanned (x : StrayLine) (rest : List Byte) :
    Scanned lineStart (x.text ++ newline :: rest) x.tokens lineStart rest := by
  cases x with
  | number n => exact (scanned_num true n rest).line
  | time t => exact (scanned_time true t rest).line
  | word w => exact (scanned_word w (endsWord_newline rest)).line
  | address q => exact (scanned_ip true q (Or.inl rfl) rest).line
  | packet p => exact scanned_packet p rest
  | endqueue => exact (scanned_keyword "END QUEUE" .endqueue (by decide) rest).line

/-! ## The parser on a stray line -/

def StrayLine.kinds : StrayLine → TokenKind × List TokenKind
  | .number _ => (.num, [.newline])
  | .time _ => (.time, [.newline])
  | .word _ => (.string, [.newline])
  | .address _ => (.ip, [.newline])
  | .packet _ => (.string, [.ip, .port, .ip, .port, .time, .newline])
  | .endqueue => (.endqueue, [.newline])

theorem StrayLine.tokens_eq (x : StrayLine) :
    ∃ t ts, x.tokens = t :: ts ∧ t.kind = some x.kinds.1 ∧
      ts.map LR.Token.kind = x.kinds.2.map some := by
  cases x with
  | _ => exact ⟨_, _, rfl, rfl, rfl⟩

/-- Every reduction on the way is a `$$ = $1`. -/
def firstOnly (ms : List Move) : Bool :=
  ms.all fun m =>
    match m with
    | .shift => true
    | .reduce r => r.action = .first

/-- The lines are `belch`es, behind which the parser stands where it has stood. -/
theorem moves_stray :
    ∀ kinds ∈ [(TokenKind.num, [TokenKind.newline]), (.time, [.newline]), (.string, [.newline]),
        (.ip, [.newline]), (.string, [.ip, .port, .ip, .port, .time, .newline]),
        (.endqueue, [.newline])],
      ((LR.moves grammar 100 (settled false) (some (some kinds.1)) (kinds.2.map some)).any
        fun m => firstOnly m.1 && m.2 = settled false) = true := by
  decide +kernel

theorem StrayLine.moves (x : StrayLine) :
    ∃ ms, LR.moves grammar 100 (settled false) (some (some x.kinds.1)) (x.kinds.2.map some) =
      some (ms, settled false) ∧ firstOnly ms = true := by
  have hkinds : x.kinds ∈ [(TokenKind.num, [TokenKind.newline]), (.time, [.newline]),
      (.string, [.newline]), (.ip, [.newline]),
      (.string, [.ip, .port, .ip, .port, .time, .newline]), (.endqueue, [.newline])] := by
    cases x <;> simp [StrayLine.kinds]
  have hmoves := moves_stray x.kinds hkinds
  rw [Option.any_eq_true] at hmoves
  rcases hmoves with ⟨⟨ms, states⟩, hsome, hboth⟩
  rw [Bool.and_eq_true, decide_eq_true_eq] at hboth
  rcases hboth with ⟨hfirst, rfl⟩
  exact ⟨ms, hsome, hfirst⟩

theorem idle_of_firstOnly {ms : List Move} (h : firstOnly ms = true) (w : Surroundings) :
    LR.Idle (linked w) ms := by
  intro r hr values e
  have haction := List.all_eq_true.mp h _ hr
  rw [decide_eq_true_eq] at haction
  change (perform w r.action values e).effect = e ∧ (perform w r.action values e).accepted = false
  rw [haction]
  exact ⟨rfl, rfl⟩

theorem reaches_stray
    (w : Surroundings) {p : Parser} (h : AtBoundary p false) (x : StrayLine) {l l' : Lexer}
    (hlexes : LR.Lexes yylex l x.tokens l') (e : Effects) :
    ∃ p', AtBoundary p' false ∧ LR.Reaches grammar (linked w) p l e (.running p' l' e) := by
  rcases x.tokens_eq with ⟨t, ts, htokens, hkind, hkinds⟩
  rw [htokens] at hlexes
  rcases reaches_opened w h (opening_between t.kind) hlexes e with
    ⟨values, l₁, hvalues, hlater, hopened⟩
  rcases x.moves with ⟨ms, hmoves, hfirst⟩
  rw [← hkind, ← hkinds] at hmoves
  have hread : LR.moves grammar 100 (settled false) ((some t).map LR.Token.kind)
      (ts.map LR.Token.kind) = some (ms, settled false) := hmoves
  rcases LR.reaches_of_idle hread (idle_of_firstOnly hfirst w) hlater hvalues e with
    ⟨values', hvalues', hreaches⟩
  exact ⟨_, ⟨Or.inl rfl, hvalues', rfl, rfl⟩, hopened.trans hreaches⟩

/-- The scanner stands in front of stray lines, and of the pieces behind them. -/
def Behind (l : Lexer) (strays : List StrayLine) (xs : List Piece) : Prop :=
  Stands l lineStart (unlines (strays.map StrayLine.text) ++ (texts xs).1) (texts xs).2

theorem reaches_strays
    (w : Surroundings) {p : Parser} (h : AtBoundary p false) {strays : List StrayLine}
    {xs : List Piece} {l : Lexer} (hl : Behind l strays xs) (e : Effects) :
    ∃ p' l', AtBoundary p' false ∧ At l' xs ∧ l'.yaccEof = l.yaccEof ∧
      LR.Reaches grammar (linked w) p l e (.running p' l' e) := by
  induction strays generalizing p l with
  | nil => exact ⟨p, l, h, hl, rfl, .refl⟩
  | cons x strays ih =>
      have hstands : Stands l lineStart (x.text ++ newline ::
          (unlines (strays.map StrayLine.text) ++ (texts xs).1)) (texts xs).2 := by
        have hl' := hl
        rw [Behind, List.map_cons, unlines_cons] at hl'
        simpa using hl'
      rcases (x.scanned _).lexes hstands with ⟨l₁, hlexes, hstands₁, heof₁⟩
      rcases reaches_stray w h x hlexes e with ⟨p₁, hp₁, hreaches₁⟩
      rcases ih hp₁ hstands₁ with ⟨p', l', hp', hl', heof, hreaches⟩
      exact ⟨p', l', hp', hl', heof.trans heof₁, hreaches₁.trans hreaches⟩

/-! ## The loops -/

theorem yyparse_behind
    (w : Surroundings) {strays : List StrayLine} {xs : List Piece} (hxs : Nested false xs)
    {l : Lexer} (hl : Behind l strays xs) (e : Effects) :
    ∃ l' e' rest n, (∀ fuel, n ≤ fuel → yyparse w fuel l e = some (.returned 0 l' e')) ∧
      Consumes xs l e l' e' rest := by
  rcases reaches_strays w atBoundary_start hl e with ⟨p, l₁, hp, hl₁, heof, hstrays⟩
  rcases parser_consumes w hp hxs hl₁ e with ⟨l', e', rest, hreaches, hconsumes⟩
  rcases (hstrays.trans hreaches).run trivial with ⟨n, hn⟩
  refine ⟨l', e', rest, n, hn, hconsumes.at_, hconsumes.nested, hconsumes.calls,
    hconsumes.complaints, ?_⟩
  rcases hconsumes.progress with hend | ⟨hshorter, hsame⟩
  · exact Or.inl hend
  · exact Or.inr ⟨hshorter, hsame.trans heof⟩

theorem parseToEof_behind
    (w : Surroundings) {strays : List StrayLine} {xs : List Piece} (hxs : Nested false xs)
    {l : Lexer} (hl : Behind l strays xs) (heof : l.yaccEof = false) (e : Effects) :
    ∃ l' e' n, (∀ fuel, n ≤ fuel → parseToEof w fuel l e = some (.returned 0 l' e')) ∧
      Finishes xs e l' e' := by
  rcases yyparse_behind w hxs hl e with ⟨l₁, e₁, rest, n, hn, hconsumes⟩
  rcases hconsumes.progress with ⟨rfl, hend⟩ | ⟨_, hsame⟩
  · refine ⟨l₁, e₁, n + 1, ?_, hconsumes.finished hend⟩
    intro fuel hfuel
    cases fuel with
    | zero => omega
    | succ fuel => simp only [parseToEof, hn fuel (by omega), hend, if_true]
  · rw [heof] at hsame
    rcases parseToEof_finishes w hconsumes.nested hconsumes.at_ hsame e₁ with
      ⟨l', e', m, hm, hfinishes⟩
    refine ⟨l', e', n + m + 1, ?_, hconsumes.finishes hfinishes⟩
    intro fuel hfuel
    cases fuel with
    | zero => omega
    | succ fuel =>
        simp only [parseToEof, hn fuel (by omega), hsame, Bool.false_eq_true, if_false]
        exact hm fuel (by omega)

theorem readFifo_behind
    (w : Surroundings) {strays : List StrayLine} {xs : List Piece} (hxs : Nested false xs)
    {l : Lexer} (hl : Behind l strays xs) (e : Effects) :
    ∃ l' e' rest n, (∀ fuel, n ≤ fuel → readFifo w fuel l e = some (.returned 0 l' e')) ∧
      Consumes xs { l with yaccEof := false } e l' e' rest := by
  have hl' : Behind { l with yaccEof := false } strays xs := ⟨hl.consistent, hl.segmented⟩
  rcases yyparse_behind w hxs hl' e with ⟨l₁, e₁, rest, n, hn, hconsumes⟩
  by_cases hagain : ¬ l₁.reader.timedOut ∧ 0 + 1 ≤ 3
  · rcases readLoop_consumes w (i := 1) (n := 2) rfl hconsumes.nested hconsumes.at_ e₁ with
      ⟨l', e', rest', m, hm, hlater⟩
    refine ⟨l', e', rest', n + m, ?_, hconsumes.trans hlater⟩
    intro fuel hfuel
    rw [readFifo, readLoop, hn fuel (by omega)]
    simp only [if_pos hagain]
    exact hm fuel (by omega)
  · refine ⟨l₁, e₁, rest, n, ?_, hconsumes⟩
    intro fuel hfuel
    rw [readFifo, readLoop, hn fuel hfuel]
    simp only [if_neg hagain]

theorem readToEof_behind
    (w : Surroundings) {strays : List StrayLine} {xs : List Piece} (hxs : Nested false xs)
    {l : Lexer} (hl : Behind l strays xs) (e : Effects) :
    ∃ l' e' n, (∀ fuel, n ≤ fuel → readToEof w fuel l e = some (.returned 0 l' e')) ∧
      Finishes xs e l' e' := by
  rcases readFifo_behind w hxs hl e with ⟨l₁, e₁, rest, n, hn, hconsumes⟩
  rcases hconsumes.progress with ⟨rfl, hend⟩ | ⟨_, hsame⟩
  · refine ⟨l₁, e₁, n + 1, ?_, hconsumes.finished hend⟩
    intro fuel hfuel
    cases fuel with
    | zero => omega
    | succ fuel => simp only [readToEof, hn fuel (by omega), hend, if_true]
  · have hopen : l₁.yaccEof = false := hsame
    rcases readToEof_finishes w hconsumes.nested hconsumes.at_ e₁ with
      ⟨l', e', m, hm, hfinishes⟩
    refine ⟨l', e', n + m + 1, ?_, hconsumes.finishes hfinishes⟩
    intro fuel hfuel
    cases fuel with
    | zero => omega
    | succ fuel =>
        simp only [readToEof, hn fuel (by omega), hopen, Bool.false_eq_true, if_false]
        exact hm fuel (by omega)

/-! ## The bytes behind the first line -/

/-- No time-out falls before the bytes have arrived. -/
def StallsBehind (early : List Byte) (input : List (Arrival Byte)) : Prop :=
  ∀ before after, input = before ++ .timeout :: after →
    early.length ≤ (received before).length

theorem StallsBehind.tail
    {early : List Byte} {c : Byte} {s : List Byte} {input : List (Arrival Byte)}
    (h : StallsBehind early (.data c s :: input)) :
    StallsBehind (early.drop (s.length + 1)) input := by
  intro before after hinput
  have hlength := h (.data c s :: before) after (by rw [hinput]; rfl)
  rw [received_cons_data] at hlength
  simp only [List.length_append, List.length_cons, List.length_drop] at hlength ⊢
  omega

/-- The arrivals in which the bytes `early` are, and what has arrived with them. -/
theorem exists_arrival
    (input : List (Arrival Byte)) {early later : List Byte}
    (htext : received input = early ++ later) (hstalls : StallsBehind early input) :
    ∃ front back with_, input = front ++ back ∧ .timeout ∉ front ∧
      received front = early ++ with_ := by
  induction input generalizing early later with
  | nil =>
      rcases List.append_eq_nil_iff.mp htext.symm with ⟨rfl, _⟩
      exact ⟨[], [], [], rfl, List.not_mem_nil, rfl⟩
  | cons a input ih =>
      cases early with
      | nil => exact ⟨[], a :: input, [], rfl, List.not_mem_nil, rfl⟩
      | cons b early =>
          cases a with
          | timeout =>
              have hlength := hstalls [] input rfl
              exact absurd hlength (Nat.not_succ_le_zero _)
          | data c s =>
              rw [received_cons_data] at htext
              rcases Nat.lt_or_ge s.length early.length with hlong | hshort
              · rcases List.append_eq_append_iff.mp htext with
                  ⟨more, hearly, hlater⟩ | ⟨more, hdata, _⟩
                · have hdrop : (b :: early).drop (s.length + 1) = more := by
                    rw [hearly]
                    exact List.drop_left' rfl
                  have hstalls' := hstalls.tail
                  rw [hdrop] at hstalls'
                  rcases ih hlater hstalls' with ⟨front, back, with_, rfl, hfront, hreceived⟩
                  refine ⟨.data c s :: front, back, with_, rfl, ?_, ?_⟩
                  · intro hmem
                    rcases List.mem_cons.mp hmem with hdata | hmem
                    · cases hdata
                    · exact hfront hmem
                  · rw [received_cons_data, hreceived, hearly, List.append_assoc]
                · have hlength := congrArg List.length hdata
                  simp only [List.length_append, List.length_cons] at hlength
                  omega
              · rcases List.append_eq_append_iff.mp htext with
                  ⟨more, hearly, _⟩ | ⟨more, hdata, _⟩
                · have hlength := congrArg List.length hearly
                  simp only [List.length_append, List.length_cons] at hlength
                  have hnone : more = [] := List.length_eq_zero_iff.mp (by omega)
                  subst hnone
                  refine ⟨[.data c s], input, [], rfl, by simp, ?_⟩
                  rw [received_cons_data, hearly]
                  simp [received]
                · refine ⟨[.data c s], input, more, rfl, by simp, ?_⟩
                  rw [received_cons_data, ← hdata]
                  simp [received]

theorem received_append (front back : List (Arrival Byte)) :
    received (front ++ back) = received front ++ received back := List.flatMap_append

theorem segments_append_of_data
    {front : List (Arrival Byte)} (hfront : .timeout ∉ front) (back : List (Arrival Byte)) :
    segments (front ++ back) = (received front ++ (segments back).1, (segments back).2) := by
  induction front with
  | nil => rfl
  | cons a front ih =>
      cases a with
      | timeout => exact absurd List.mem_cons_self hfront
      | data c s =>
          rw [List.cons_append, segments, ih (fun h => hfront (List.mem_cons_of_mem _ h)),
            received_cons_data, List.append_assoc]

/-- Each time-out falls behind the bytes `early` and between two parts. -/
def TimesOutBehind
    (early : List Byte) (rs : List Record) (input : List (Arrival Byte)) : Prop :=
  ∀ before after, input = before ++ .timeout :: after →
    ∃ seen, seen <+: partsOf rs ∧ received before = early ++ seen.flatMap Part.text

theorem TimesOutBehind.stallsBehind
    {early : List Byte} {rs : List Record} {input : List (Arrival Byte)}
    (h : TimesOutBehind early rs input) : StallsBehind early input := by
  intro before after hinput
  rcases h before after hinput with ⟨seen, _, hreceived⟩
  rw [hreceived, List.length_append]
  omega

theorem exists_pieces_behind
    {rs : List Record} {strays : List StrayLine} {input : List (Arrival Byte)}
    (hinput : received input = unlines (strays.map StrayLine.text) ++ stream rs)
    (hbehind : TimesOutBehind (unlines (strays.map StrayLine.text)) rs input) :
    ∃ xs, Nested false xs ∧ Behind (.start input) strays xs ∧ calls xs = prescribed rs := by
  rcases exists_arrival input hinput hbehind.stallsBehind with
    ⟨front, back, with_, rfl, hfront, hreceived⟩
  rw [received_append, hreceived, List.append_assoc, stream_eq] at hinput
  have htext := List.append_cancel_left hinput
  rcases exists_pieces back htext (by
    intro before after hback
    rcases hbehind (front ++ before) after (by rw [hback, List.append_assoc]) with
      ⟨seen, hseen, hboth⟩
    refine ⟨seen, hseen, ?_⟩
    rw [received_append, hreceived, List.append_assoc] at hboth
    exact List.append_cancel_left hboth) with ⟨xs, hparts, htexts⟩
  refine ⟨xs, Nested.of_parts (by rw [hparts]; exact nested_records rs), ?_, ?_⟩
  · have hopen : (Lexer.start (front ++ back)).reader.Consistent := by
      intro hended
      cases hended
    refine ⟨hopen, ?_⟩
    rw [htexts]
    change Segmented.mk _ ([] ++ (segments (front ++ back)).1) (segments (front ++ back)).2 = _
    rw [segments_append_of_data hfront, hreceived, List.nil_append, List.append_assoc]
    rfl
  · rw [calls_eq, hparts, prescribed_eq]

/-- A client which misses the beginning of a record, but none of its text if it
is a message, loses nothing of the records behind it and complains of nothing. -/
theorem late_join
    (w : Surroundings) {r : Record} (hr : ¬ r.IsMessage) {missed tail : List (List Byte)}
    (hlines : r.lines = missed ++ tail) (hmissed : missed ≠ []) {rs : List Record}
    {input : List (Arrival Byte)} (hinput : received input = unlines tail ++ stream rs)
    (hbehind : TimesOutBehind (unlines tail) rs input) :
    ∃ n, ∀ fuel, n ≤ fuel →
      (∃ l e, readToEof w fuel (.start input) .none = some (.returned 0 l e) ∧
        l.yaccEof = true ∧ e.calls = prescribed rs ∧ e.complaints = []) ∧
      ∃ l e, parseToEof w fuel (.start input) .none = some (.returned 0 l e) ∧
        l.yaccEof = true ∧ e.calls = prescribed rs ∧ e.complaints = [] := by
  rcases r.exists_strayLines_suffix hr hlines hmissed with ⟨strays, rfl⟩
  rcases exists_pieces_behind hinput hbehind with ⟨xs, hnested, hl, hcalls⟩
  rcases readToEof_behind w hnested hl .none with ⟨l, e, n, hn, hfinishes⟩
  rcases parseToEof_behind w hnested hl rfl .none with ⟨l', e', n', hn', hfinishes'⟩
  refine ⟨n + n', ?_⟩
  intro fuel hfuel
  refine ⟨⟨l, e, hn fuel (by omega), hfinishes.eof, ?_, hfinishes.complaints⟩,
    l', e', hn' fuel (by omega), hfinishes'.eof, ?_, hfinishes'.complaints⟩
  · exact hfinishes.calls.trans hcalls
  · exact hfinishes'.calls.trans hcalls

theorem late_join_endqueue :
    ∃ n, ∀ fuel, n ≤ fuel →
      (∃ l e, readToEof quiet fuel
          (.start [.data 69 (bytes "ND QUEUE\n"), .timeout,
            .data 77 (bytes "ESSAGE\nhello\n")]) .none = some (.returned 0 l e) ∧
        l.yaccEof = true ∧ e.calls = [.doMessage (bytes "hello")] ∧ e.complaints = []) ∧
      ∃ l e, parseToEof quiet fuel
          (.start [.data 69 (bytes "ND QUEUE\n"), .timeout,
            .data 77 (bytes "ESSAGE\nhello\n")]) .none = some (.returned 0 l e) ∧
        l.yaccEof = true ∧ e.calls = [.doMessage (bytes "hello")] ∧ e.complaints = [] := by
  have hmessage : ¬ (Record.queue []).IsMessage := by
    rintro ⟨line, hline⟩
    cases hline
  have hlines : (Record.queue []).lines = [bytes "QUEUE"] ++ [bytes "END QUEUE"] := rfl
  have hinput : received [.data 69 (bytes "ND QUEUE\n"), .timeout,
      .data 77 (bytes "ESSAGE\nhello\n")] = unlines [bytes "END QUEUE"] ++ stream [hello] := by
    decide
  apply late_join quiet hmessage hlines (by simp) hinput
  intro before after heq
  refine ⟨[], List.nil_prefix, ?_⟩
  cases before with
  | nil => cases heq
  | cons a before =>
      cases before with
      | nil =>
          rcases List.cons.inj heq with ⟨rfl, _⟩
          decide
      | cons b before =>
          rcases List.cons.inj (List.cons.inj heq).2 with ⟨_, hlater⟩
          have hmem : Arrival.timeout ∈ [Arrival.data 77 (bytes "ESSAGE\nhello\n")] := by
            rw [hlater]
            simp
          exact absurd hmem (by decide)

/-- The text of a message may open a queue, in which the records behind it are errors. -/
theorem exists_misled_join :
    ∃ line, madeCalls (parseToEof quiet 100 (.start [.data 81 (bytes "UEUE\n"),
        .data 77 (bytes "ESSAGE\nhello\n")]) .none) ≠ some (prescribed [hello]) ∧
      (Record.report (.message line)).lines = [bytes "MESSAGE", bytes "QUEUE"] := by
  refine ⟨⟨bytes "QUEUE", by decide, by decide⟩, ?_, rfl⟩
  decide +kernel

end Monitor

end DialdTop
