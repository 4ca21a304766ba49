import DialdTop.MonitorRuns

/-!
# The monitor stream

The calls which the client makes for a stream of well-formed records, however
the bytes arrive, as long as no time-out falls inside of a part.
-/

namespace DialdTop

open Scanner

namespace Monitor

def received (input : List (Arrival Byte)) : List Byte :=
  input.flatMap fun a =>
    match a with
    | .data c s => c :: s
    | .timeout => []

def stream (rs : List Record) : List Byte := rs.flatMap Record.text

def prescribed (rs : List Record) : List Call := rs.flatMap Record.calls

def partsOf (rs : List Record) : List Part := rs.flatMap Record.parts

/-- Each time-out falls between two records, or in a queue behind its first
line or behind a packet. -/
def TimesOutBetweenParts (rs : List Record) (input : List (Arrival Byte)) : Prop :=
  ∀ before after, input = before ++ .timeout :: after →
    ∃ seen, seen <+: partsOf rs ∧ received before = seen.flatMap Part.text

/-- The calls made when the loop has ended. -/
def madeCalls : Option Outcome → Option (List Call)
  | some (.returned _ _ e) => some e.calls
  | some (.exited _ e) => some e.calls
  | _ => none

/-! ## Pieces of a stream -/

def partsIn (xs : List Piece) : List Part :=
  xs.filterMap fun x =>
    match x with
    | .part p => some p
    | .timeout => none

theorem partsIn_map (ps : List Part) : partsIn (ps.map .part) = ps := by
  induction ps with
  | nil => rfl
  | cons p ps ih =>
      change p :: partsIn (ps.map .part) = p :: ps
      rw [ih]

theorem partsIn_append (xs ys : List Piece) : partsIn (xs ++ ys) = partsIn xs ++ partsIn ys :=
  List.filterMap_append

theorem calls_eq (xs : List Piece) : calls xs = (partsIn xs).map Part.call := by
  induction xs with
  | nil => rfl
  | cons x xs ih =>
      change x.calls ++ calls xs = _
      rw [ih]
      cases x with
      | part p => rfl
      | timeout => rfl

theorem texts_append (ps : List Part) (xs : List Piece) :
    texts (ps.map .part ++ xs) = (ps.flatMap Part.text ++ (texts xs).1, (texts xs).2) := by
  induction ps with
  | nil => rfl
  | cons p ps ih =>
      simp only [List.map_cons, List.cons_append, texts, ih, List.flatMap_cons,
        List.append_assoc]

theorem Nested.of_parts
    {inQueue : Bool} {xs : List Piece} (h : Nested inQueue ((partsIn xs).map .part)) :
    Nested inQueue xs := by
  induction xs generalizing inQueue with
  | nil => exact h
  | cons x xs ih =>
      cases x with
      | part p =>
          cases h with
          | cons hfollows hlater => exact .cons hfollows (ih hlater)
      | timeout => exact .cons (.timeout inQueue) (ih h)

theorem nested_packets
    (packets : List Packet) {xs : List Piece} (h : Nested false xs) :
    Nested true (packets.map (fun p => .part (.packet p)) ++ .part .endqueue :: xs) := by
  induction packets with
  | nil => exact .cons .endqueue h
  | cons p packets ih => exact .cons (.packet p) ih

theorem nested_records (rs : List Record) : Nested false ((partsOf rs).map .part) := by
  induction rs with
  | nil => exact .nil
  | cons r rs ih =>
      cases r with
      | report r => exact .cons (.report r) ih
      | queue packets =>
          have hqueue := Nested.cons .queue (nested_packets packets ih)
          simpa [partsOf, Record.parts, Function.comp_def] using hqueue

theorem stream_eq (rs : List Record) : stream rs = (partsOf rs).flatMap Part.text := by
  induction rs with
  | nil => rfl
  | cons r rs ih =>
      change r.text ++ stream rs = (r.parts ++ partsOf rs).flatMap Part.text
      rw [ih, Record.text_eq, List.flatMap_append]

theorem prescribed_eq (rs : List Record) : prescribed rs = (partsOf rs).map Part.call := by
  induction rs with
  | nil => rfl
  | cons r rs ih =>
      change r.calls ++ prescribed rs = (r.parts ++ partsOf rs).map Part.call
      rw [ih, Record.calls_eq, List.map_append]

theorem received_cons_data (c : Byte) (s : List Byte) (input : List (Arrival Byte)) :
    received (.data c s :: input) = c :: s ++ received input := rfl

/-- The arrivals cut the parts into pieces when each time-out falls between two
of them.  Part of the text may have been received before. -/
theorem exists_pieces
    (input : List (Arrival Byte)) {earlier : List Byte} {ps : List Part}
    (htext : earlier ++ received input = ps.flatMap Part.text)
    (htimeouts : ∀ before after, input = before ++ .timeout :: after →
      ∃ seen, seen <+: ps ∧ earlier ++ received before = seen.flatMap Part.text) :
    ∃ xs, partsIn xs = ps ∧
      texts xs = (earlier ++ (segments input).1, (segments input).2) := by
  induction input generalizing earlier ps with
  | nil =>
      refine ⟨ps.map .part, partsIn_map ps, ?_⟩
      have htexts := texts_append ps []
      rw [List.append_nil, ← htext] at htexts
      rw [htexts]
      simp [received, texts, segments]
  | cons a input ih =>
      cases a with
      | data c s =>
          have hnext : earlier ++ (c :: s) ++ received input = ps.flatMap Part.text := by
            rw [List.append_assoc, ← received_cons_data]
            exact htext
          rcases ih hnext (by
            intro before after hinput
            rcases htimeouts (.data c s :: before) after (by rw [hinput]; rfl) with
              ⟨seen, hseen, hreceived⟩
            refine ⟨seen, hseen, ?_⟩
            rw [List.append_assoc, ← received_cons_data]
            exact hreceived) with ⟨xs, hparts, htexts⟩
          refine ⟨xs, hparts, ?_⟩
          rw [htexts, segments, List.append_assoc]
      | timeout =>
          rcases htimeouts [] input rfl with ⟨seen, ⟨later, rfl⟩, hseen⟩
          have hearlier : earlier = seen.flatMap Part.text := by
            rw [← hseen]
            exact (List.append_nil earlier).symm
          subst hearlier
          have hlater : [] ++ received input = later.flatMap Part.text := by
            rw [List.flatMap_append] at htext
            exact List.append_cancel_left htext
          have htimeouts' : ∀ before after, input = before ++ .timeout :: after →
              ∃ seen', seen' <+: later ∧ [] ++ received before = seen'.flatMap Part.text := by
            intro before after hinput
            rcases htimeouts (.timeout :: before) after (by rw [hinput]; rfl) with
              ⟨seen', hseen', hreceived⟩
            have hreceived' : seen.flatMap Part.text ++ received before =
                seen'.flatMap Part.text := hreceived
            -- Of two beginnings of one list one is a beginning of the other.
            rcases List.prefix_or_prefix_of_prefix hseen' (List.prefix_append seen later) with
              hshort | hlong
            · rcases hshort with ⟨more, rfl⟩
              have hlength := congrArg List.length hreceived'
              have hnone : received before = [] := by
                rw [← List.length_eq_zero_iff]
                rw [List.flatMap_append] at hlength
                simp only [List.length_append] at hlength
                omega
              exact ⟨[], List.nil_prefix, hnone⟩
            · rcases hlong with ⟨more, rfl⟩
              rw [List.prefix_append_right_inj] at hseen'
              rw [List.flatMap_append] at hreceived'
              exact ⟨more, hseen', List.append_cancel_left hreceived'⟩
          rcases ih hlater htimeouts' with ⟨xs, hparts, htexts⟩
          refine ⟨seen.map .part ++ .timeout :: xs, ?_, ?_⟩
          · rw [partsIn_append, partsIn_map, ← hparts]
            rfl
          · rw [texts_append, texts, htexts]
            rfl

theorem exists_pieces_of_records
    {rs : List Record} {input : List (Arrival Byte)} (hinput : received input = stream rs)
    (hbetween : TimesOutBetweenParts rs input) :
    ∃ xs, Nested false xs ∧ At (.start input) xs ∧ calls xs = prescribed rs := by
  have htext : [] ++ received input = (partsOf rs).flatMap Part.text := by
    rw [List.nil_append, hinput, stream_eq]
  rcases exists_pieces input htext hbetween with ⟨xs, hparts, htexts⟩
  refine ⟨xs, Nested.of_parts (by rw [hparts]; exact nested_records rs), ?_, ?_⟩
  · have hopen : (Lexer.start input).reader.Consistent := by
      intro hended
      cases hended
    refine ⟨hopen, ?_⟩
    rw [htexts]
    rfl
  · rw [calls_eq, hparts, prescribed_eq]

/-! ## The calls -/

theorem timesOutBetweenParts_of_data
    (rs : List Record) {input : List (Arrival Byte)} (h : .timeout ∉ input) :
    TimesOutBetweenParts rs input := by
  intro before after heq
  apply absurd _ h
  rw [heq]
  simp

/-- For a given input the places of the time-outs can be gone through. -/
theorem timesOutBetweenParts_of_take
    {rs : List Record} {input : List (Arrival Byte)}
    (h : ∀ i < input.length, input[i]? = some .timeout → ∃ k < (partsOf rs).length + 1,
      received (input.take i) = ((partsOf rs).take k).flatMap Part.text) :
    TimesOutBetweenParts rs input := by
  intro before after heq
  have hlt : before.length < input.length := by
    rw [heq]
    simp
  have htimeout : input[before.length]? = some .timeout := by
    rw [heq]
    simp
  rcases h before.length hlt htimeout with ⟨k, _, hreceived⟩
  rw [heq, List.take_left] at hreceived
  exact ⟨(partsOf rs).take k, List.take_prefix _ _, hreceived⟩

theorem exists_calls
    {rs : List Record} {input : List (Arrival Byte)} (hinput : received input = stream rs)
    (hbetween : TimesOutBetweenParts rs input) (w : Surroundings) :
    ∃ n, ∀ fuel, n ≤ fuel →
      madeCalls (readToEof w fuel (.start input) .none) = some (prescribed rs) ∧
        madeCalls (parseToEof w fuel (.start input) .none) = some (prescribed rs) := by
  rcases exists_pieces_of_records hinput hbetween with ⟨xs, hnested, hat, hcalls⟩
  rcases readToEof_finishes w hnested hat .none with ⟨l, e, n, hn, hfinishes⟩
  rcases parseToEof_finishes w hnested hat rfl .none with ⟨l', e', n', hn', hfinishes'⟩
  refine ⟨n + n', ?_⟩
  intro fuel hfuel
  rw [hn fuel (by omega), hn' fuel (by omega), ← hcalls]
  exact ⟨congrArg some hfinishes.calls, congrArg some hfinishes'.calls⟩

theorem parse_records
    (w : Surroundings) (rs : List Record) {input : List (Arrival Byte)}
    (hinput : received input = stream rs) (hstalls : .timeout ∉ input) :
    ∃ l e n, (∀ fuel, n ≤ fuel →
        parseToEof w fuel (.start input) .none = some (.returned 0 l e)) ∧
      l.yaccEof = true ∧ e.calls = prescribed rs ∧ e.complaints = [] := by
  rcases exists_pieces_of_records hinput (timesOutBetweenParts_of_data rs hstalls) with
    ⟨xs, hnested, hat, hcalls⟩
  rcases parseToEof_finishes w hnested hat rfl .none with ⟨l, e, n, hn, hfinishes⟩
  exact ⟨l, e, n, hn, hfinishes.eof, hfinishes.calls.trans hcalls, hfinishes.complaints⟩

/-- No key is pressed. -/
def quiet : Surroundings where
  lexTestkey _ := false
  pointer _ := 0
  quitIfParseError := false

/-- A MESSAGE record with the text `hello`. -/
def hello : Record :=
  .report (.message ⟨bytes "hello", by decide, by decide⟩)

/-- A key is pressed behind every record. -/
def pressed : Surroundings where
  lexTestkey _ := true
  pointer _ := 0
  quitIfParseError := false

/-- 10.0.0.0 to 10.0.0.9. -/
def Quad.ten (i : Fin 10) : Quad where
  first := ⟨bytes "10", by decide, by decide, by decide +kernel⟩
  second := ⟨bytes "0", by decide, by decide, by decide +kernel⟩
  third := ⟨bytes "0", by decide, by decide, by decide +kernel⟩
  fourth := ⟨[digit i], List.cons_ne_nil _ _, by simp, by revert i; decide +kernel⟩

def Packet.web : Packet where
  protocol := ⟨116, bytes "cp", by decide, by decide +kernel, by decide⟩
  ip1 := .ten 1
  port1 := ⟨56, bytes "0", by decide +kernel, by decide, by decide⟩
  ip2 := .ten 2
  port2 := ⟨49, bytes "025", by decide +kernel, by decide, by decide⟩
  ttl := ⟨(0, 0), (0, 0), (1, 5)⟩

/-- The loads and a queue of one packet. -/
def loadedQueue : List Record :=
  [.report (.load ⟨bytes "1200", by decide, by decide +kernel, by decide⟩
      ⟨bytes "34", by decide, by decide +kernel, by decide⟩),
    .queue [.web]]

def loadedCalls : List Call :=
  [.doLoad 1200 34, .doQueue,
    .doPacket (bytes "tcp") (bytes "10.0.0.1") 80 (bytes "10.0.0.2") 1025 (bytes "00:00:15"),
    .doEndqueue]

/-- The two records in pieces which are none of their lines. -/
def scattered : List (Arrival Byte) :=
  [.data 76 (bytes "OAD\n12"), .data 48 (bytes "0\n34\nQUE"),
    .data 85 (bytes "E\ntcp 10.0.0.1/80 10.0.0.2/1025 00:"), .data 48 (bytes "0:15\nEND QUEUE\n")]

theorem parse_records_loaded :
    ∃ l e n, (∀ fuel, n ≤ fuel → parseToEof pressed fuel (.start scattered) .none =
        some (.returned 0 l e)) ∧
      l.yaccEof = true ∧ e.calls = loadedCalls ∧ e.complaints = [] := by
  have hcalls : prescribed loadedQueue = loadedCalls := by decide +kernel
  rw [← hcalls]
  exact parse_records pressed loadedQueue (by decide +kernel) (by decide)

theorem parse_independent_of_arrival
    (rs : List Record) {input input' : List (Arrival Byte)}
    (hinput : received input = stream rs) (hinput' : received input' = stream rs)
    (hbetween : TimesOutBetweenParts rs input) (hbetween' : TimesOutBetweenParts rs input')
    (w w' : Surroundings) :
    ∃ n, ∀ fuel, n ≤ fuel →
      madeCalls (readToEof w fuel (.start input) .none) = some (prescribed rs) ∧
        madeCalls (parseToEof w fuel (.start input) .none) = some (prescribed rs) ∧
        madeCalls (readToEof w' fuel (.start input') .none) = some (prescribed rs) ∧
        madeCalls (parseToEof w' fuel (.start input') .none) = some (prescribed rs) := by
  rcases exists_calls hinput hbetween w with ⟨n, hn⟩
  rcases exists_calls hinput' hbetween' w' with ⟨n', hn'⟩
  refine ⟨n + n', ?_⟩
  intro fuel hfuel
  have hfirst := hn fuel (by omega)
  have hsecond := hn' fuel (by omega)
  exact ⟨hfirst.1, hfirst.2, hsecond.1, hsecond.2⟩

/-- The two records line by line, with a time-out between any two parts of them. -/
def stalled : List (Arrival Byte) :=
  [.timeout, .data 76 (bytes "OAD\n1200\n34\n"), .timeout, .data 81 (bytes "UEUE\n"), .timeout,
    .data 116 (bytes "cp 10.0.0.1/80 10.0.0.2/1025 00:00:15\n"), .timeout,
    .data 69 (bytes "ND QUEUE\n"), .timeout]

theorem parse_independent_of_arrival_loaded :
    ∃ n, ∀ fuel, n ≤ fuel →
      madeCalls (readToEof pressed fuel (.start stalled) .none) = some loadedCalls ∧
        madeCalls (parseToEof pressed fuel (.start stalled) .none) = some loadedCalls ∧
        madeCalls (readToEof quiet fuel (.start scattered) .none) = some loadedCalls ∧
        madeCalls (parseToEof quiet fuel (.start scattered) .none) = some loadedCalls := by
  have hstalled : TimesOutBetweenParts loadedQueue stalled :=
    timesOutBetweenParts_of_take (by decide +kernel)
  have hscattered : TimesOutBetweenParts loadedQueue scattered :=
    timesOutBetweenParts_of_data loadedQueue (by decide)
  have hcalls : prescribed loadedQueue = loadedCalls := by decide +kernel
  rw [← hcalls]
  exact parse_independent_of_arrival loadedQueue (by decide +kernel) (by decide +kernel) hstalled
    hscattered pressed quiet

/-- A time-out between the first line of a MESSAGE record and its text. -/
theorem exists_lost_message :
    ∃ rs input input', received input = stream rs ∧ received input' = stream rs ∧
      (∃ fuel, madeCalls (readToEof quiet fuel (.start input) .none) =
        some [.doMessage (bytes "hello")]) ∧
      ∃ fuel, madeCalls (readToEof quiet fuel (.start input') .none) = some [] := by
  refine ⟨[hello], [.data 77 (bytes "ESSAGE\nhello\n")],
    [.data 77 (bytes "ESSAGE\n"), .timeout, .data 104 (bytes "ello\n")], by decide, by decide,
    ⟨100, ?_⟩, ⟨100, ?_⟩⟩
  · decide +kernel
  · decide +kernel

end Monitor

end DialdTop
