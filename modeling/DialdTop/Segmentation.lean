import DialdTop.Service

/-!
# Commands and the cutting of the stream

`port_server` hands every chunk it reads to `parse_incoming` as one command.
Nothing is kept from one read to the next, so that the cutting of a stream
matters as far as it decides which reads begin with a keyword.
-/

namespace DialdTop

open Program

/-! ## States which differ in their history -/

/-- What `select` reported last and the trace are left out. -/
def Server.forget (s : Server) : Server :=
  { s with trace := [], ps := { s.ps with sel := ∅, selcount := 0 } }

/-- What an event writes to the given descriptor. -/
def Event.textTo (target : Int) : Event → List Byte
  | .write _ fd text _ => if fd = target then text else []
  | _ => []

/-- The bytes which have been written to the control FIFO. -/
def Server.controlText (s : Server) : List Byte :=
  s.trace.flatMap (Event.textTo s.controlfd)

structure Alike (s t : Server) : Prop where
  forget : s.forget = t.forget
  control : s.controlText = t.controlText

/-- The choice of a FIFO depends on neither the trace nor `select`. -/
def Env.Forgetful (env : Env) : Prop :=
  ∀ s t, s.forget = t.forget →
    env.tmpnam s = env.tmpnam t ∧ env.openMonitor s = env.openMonitor t

theorem Alike.trans {s t u : Server} (hst : Alike s t) (htu : Alike t u) : Alike s u :=
  ⟨hst.forget.trans htu.forget, hst.control.trans htu.control⟩

theorem Alike.congr {s t : Server} (h : Alike s t) (f : Server → α)
    (hf : ∀ u, f u.forget = f u) : f s = f t := by
  rw [← hf s, ← hf t, h.forget]

theorem Alike.pq {s t : Server} (h : Alike s t) : s.pq = t.pq :=
  h.congr Server.pq fun _ => rfl

theorem Alike.controlfd {s t : Server} (h : Alike s t) : s.controlfd = t.controlfd :=
  h.congr Server.controlfd fun _ => rfl

theorem Alike.update
    {s t : Server} (h : Alike s t) (f : Server → Server)
    (hforget : ∀ u, (f u).forget = (f u.forget).forget)
    (hcontrol : ∀ u, (f u).controlText = u.controlText) : Alike (f s) (f t) := by
  constructor
  · rw [hforget s, hforget t, h.forget]
  · rw [hcontrol s, hcontrol t, h.control]

theorem controlText_log (s : Server) (event : Event) :
    (s.log event).controlText = s.controlText ++ event.textTo s.controlfd := by
  simp [Server.controlText, Server.log]

theorem alike_read (s : Server) (fd : Int) (chunk : Option (List Byte)) :
    Alike (s.log (.read fd chunk)) s := by
  refine ⟨rfl, ?_⟩
  rw [controlText_log]
  exact List.append_nil _

theorem Alike.log_write
    {s t : Server} (h : Alike s t) (writer writer' : Writer) (fd : Int) (text : List Byte)
    (result result' : WriteResult) :
    Alike (s.log (.write writer fd text result)) (t.log (.write writer' fd text result')) := by
  refine ⟨h.forget, ?_⟩
  rw [controlText_log, controlText_log, h.control, h.controlfd, Event.textTo, Event.textTo]

theorem alike_write_elsewhere
    (s : Server) (writer : Writer) {fd : Int} (text : List Byte) (result : WriteResult)
    (hfd : fd ≠ s.controlfd) : Alike (s.log (.write writer fd text result)) s := by
  refine ⟨rfl, ?_⟩
  rw [controlText_log, Event.textTo, if_neg hfd, List.append_nil]

theorem QueueInv.of_forget {s : Server} (hinv : QueueInv s.forget) : QueueInv s where
  distinct := hinv.distinct
  inRange := hinv.inRange
  fullcount := hinv.fullcount
  full := hinv.full
  maxfd := hinv.maxfd
  monitorcount := hinv.monitorcount
  fifoClosed := hinv.fifoClosed
  fifoOpen := hinv.fifoOpen

theorem QueueInv.forget {s : Server} (hinv : QueueInv s) : QueueInv s.forget where
  distinct := hinv.distinct
  inRange := hinv.inRange
  fullcount := hinv.fullcount
  full := hinv.full
  maxfd := hinv.maxfd
  monitorcount := hinv.monitorcount
  fifoClosed := hinv.fifoClosed
  fifoOpen := hinv.fifoOpen

theorem QueueInv.alike {s t : Server} (hinv : QueueInv s) (h : Alike s t) : QueueInv t := by
  apply QueueInv.of_forget
  rw [← h.forget]
  exact hinv.forget

/-! ## Commands in such states -/

theorem Alike.monitorOpened
    {s t : Server} (h : Alike s t) (path : List Byte) (fd : Int)
    (result result' : WriteResult) :
    Alike (s.monitorOpened path fd result) (t.monitorOpened path fd result') := by
  have hwritten := h.log_write .monitorOpen .monitorOpen s.controlfd (monitorLine path)
    result result'
  have htarget := h.controlfd
  let opened (u : Server) : Server :=
    { u with
      monitor := path
      monitorfd := fd
      kernel := insert fd u.kernel
      fs := { u.fs with fullcount := 1, full := {fd}, maxfd := fd } }
  have hopened := hwritten.update opened (fun _ => rfl) fun _ => rfl
  rw [htarget] at hopened
  have hleft : s.monitorOpened path fd result =
      opened (s.log (.write .monitorOpen t.controlfd (monitorLine path) result)) := by
    rw [← htarget]
    rfl
  rw [hleft]
  exact hopened

theorem monitorOpen_alike
    {env : Env} (hworld : env.Forgetful) {s t : Server} (h : Alike s t) :
    Prog.Agree Alike ((monitorOpen env).run s) ((monitorOpen env).run t) := by
  have hmonitorfd : s.monitorfd = t.monitorfd := h.congr Server.monitorfd fun _ => rfl
  have hkernel : s.kernel = t.kernel := h.congr Server.kernel fun _ => rfl
  have hpath : env.tmpnam s = env.tmpnam t := (hworld s t h.forget).1
  by_cases hclosed : s.monitorfd = -1
  · have hclosed' : t.monitorfd = -1 := by rw [← hmonitorfd, hclosed]
    by_cases hlong : (env.tmpnam s).length < 255
    · have hlong' : (env.tmpnam t).length < 255 := by rw [← hpath]; exact hlong
      have hanswer :
          env.openMonitor { s with monitor := env.tmpnam s } =
            env.openMonitor { t with monitor := env.tmpnam t } := by
        apply (hworld _ _ _).2
        rw [hpath]
        exact congrArg (fun u : Server => { u with monitor := env.tmpnam t }) h.forget
      have hfresh : ∀ fd, s.fresh fd ↔ t.fresh fd := by
        intro fd
        rw [Server.fresh, Server.fresh, hkernel]
      by_cases hopen :
          ∃ fd, env.openMonitor { s with monitor := env.tmpnam s } = some fd ∧ s.fresh fd
      · rcases hopen with ⟨fd, hfd, hnew⟩
        rw [monitorOpen_run_fresh hclosed hlong hfd hnew,
          monitorOpen_run_fresh hclosed' hlong' (hanswer ▸ hfd) ((hfresh fd).mp hnew)]
        by_cases hrange : fd < fdSetSize
        · rw [if_pos hrange, if_pos hrange, hpath]
          exact .ok (h.monitorOpened _ _ _ _)
        · rw [if_neg hrange, if_neg hrange]
          exact .error _
      · have hfailed : ∀ fd, env.openMonitor { s with monitor := env.tmpnam s } = some fd →
            ¬ s.fresh fd := by
          intro fd hfd hnew
          exact hopen ⟨fd, hfd, hnew⟩
        have hfailed' : ∀ fd, env.openMonitor { t with monitor := env.tmpnam t } = some fd →
            ¬ t.fresh fd := by
          intro fd hfd
          rw [← hfresh fd]
          exact hfailed fd (hanswer.trans hfd)
        rw [monitorOpen_run_failed hclosed hlong hfailed,
          monitorOpen_run_failed hclosed' hlong' hfailed', hpath]
        exact .ok (h.update (·.monitorFailed (env.tmpnam t)) (fun _ => rfl) fun _ => rfl)
    · have hlong' : ¬ (env.tmpnam t).length < 255 := by rw [← hpath]; exact hlong
      rw [monitorOpen_run_long hclosed hlong, monitorOpen_run_long hclosed' hlong']
      exact .error _
  · have hopen : t.monitorfd ≠ -1 := by rw [← hmonitorfd]; exact hclosed
    rw [monitorOpen_run_open env hclosed, monitorOpen_run_open env hopen]
    exact .ok h

/-- Chunks with one keyword are obeyed alike. -/
theorem parseIncoming_alike
    {env : Env} (hworld : env.Forgetful) {s t : Server} (h : Alike s t)
    (hinv : QueueInv s) {c : ℕ} {p : Port} (hp : s.pq[c]? = some p)
    {line line' : List Byte} {word : Keyword} (hline : keyword line = some word)
    (hline' : keyword line' = some word) :
    Prog.Agree Alike ((parseIncoming env line c).run s)
      ((parseIncoming env line' c).run t) := by
  have hp' : t.pq[c]? = some p := by rw [← h.pq]; exact hp
  cases word with
  | monitorOff =>
      rw [parseIncoming_run_monitorOff hp hline, parseIncoming_run_monitorOff hp' hline']
      by_cases hmonitor : p.has flagMonitor
      · rw [if_pos hmonitor, if_pos hmonitor]
        exact .ok (h.update (·.monitorOff c) (fun _ => rfl) fun _ => rfl)
      · rw [if_neg hmonitor, if_neg hmonitor]
        exact .ok h
  | monitor =>
      have hcount : s.fs.fullcount = t.fs.fullcount :=
        h.congr (fun u => u.fs.fullcount) fun _ => rfl
      have hon : Alike (s.monitorOn c) (t.monitorOn c) :=
        h.update (·.monitorOn c) (fun _ => rfl) fun _ => rfl
      rw [parseIncoming_run_monitor hp hline, parseIncoming_run_monitor hp' hline', hcount]
      by_cases hmonitor : p.has flagMonitor
      · rw [if_pos hmonitor, if_pos hmonitor]
        exact .ok h
      · rw [if_neg hmonitor, if_neg hmonitor]
        by_cases hclosed : t.fs.fullcount = 0
        · rw [if_pos hclosed, if_pos hclosed]
          have hagree := monitorOpen_alike hworld hon
          generalize (monitorOpen env).run (s.monitorOn c) = result at hagree
          generalize (monitorOpen env).run (t.monitorOn c) = result' at hagree
          cases hagree with
          | ok hafter => exact .ok hafter
          | error reason => exact .error reason
        · rw [if_neg hclosed, if_neg hclosed]
          exact .ok hon
  | close =>
      rw [parseIncoming_run_close hp hinv hline,
        parseIncoming_run_close hp' (hinv.alike h) hline']
      exact .ok (h.update (·.closed c p) (fun _ => rfl) fun _ => rfl)

/-! ## What a command leaves of the queue -/

/-- The port at position `c` has kept its connection and its right to write,
and nothing has been inserted or removed. -/
structure Continues (c : ℕ) (p : Port) (s t : Server) : Prop where
  queue : QueueInv t
  length : t.pq.length = s.pq.length
  controlfd : t.controlfd = s.controlfd
  port : ∃ q, t.pq[c]? = some q ∧ q.fd = p.fd ∧ q.has flagWrite = p.has flagWrite

theorem Continues.of_modify
    {s t : Server} {c : ℕ} {p : Port} (hp : s.pq[c]? = some p) {f : Port → Port}
    (hqueue : QueueInv t) (hpq : t.pq = s.pq.modify c f) (hcontrolfd : t.controlfd = s.controlfd)
    (hfd : (f p).fd = p.fd) (hwrite : (f p).has flagWrite = p.has flagWrite) :
    Continues c p s t := by
  refine ⟨hqueue, ?_, hcontrolfd, f p, ?_, hfd, hwrite⟩
  · rw [hpq, List.length_modify]
  · rw [hpq, List.getElem?_modify_eq, hp]
    rfl

theorem Continues.of_pq
    {s t : Server} {c : ℕ} {p : Port} (hp : s.pq[c]? = some p)
    (hqueue : QueueInv t) (hpq : t.pq = s.pq) (hcontrolfd : t.controlfd = s.controlfd) :
    Continues c p s t := by
  refine ⟨hqueue, ?_, hcontrolfd, p, ?_, rfl, rfl⟩
  · rw [hpq]
  · rw [hpq]
    exact hp

theorem Command.continues
    {env : Env} {line : List Byte} {c : ℕ} {p : Port} {s next : Server}
    (hinv : QueueInv s) (hp : s.pq[c]? = some p)
    (hcommand : Command env line c p s false next) : Continues c p s next := by
  have hqueue := hinv.command hp hcommand
  cases hcommand with
  | ignored => exact .of_pq hp hqueue rfl rfl
  | monitorOff => exact .of_modify hp hqueue rfl rfl rfl p.monitorOff_has_write
  | monitorOn => exact .of_modify hp hqueue rfl rfl rfl p.monitorOn_has_write
  | monitorOpen _ _ hopen =>
      rcases monitorOpen_cases hopen with ⟨_, hnext⟩ | ⟨_, path, hnext | hnext⟩
      · subst next
        exact .of_modify hp hqueue rfl rfl rfl p.monitorOn_has_write
      · rw [hnext.1] at hqueue ⊢
        exact .of_modify hp hqueue rfl rfl rfl p.monitorOn_has_write
      · rcases hnext with ⟨fd, result, _, _, hnext⟩
        rw [hnext] at hqueue ⊢
        exact .of_modify hp hqueue rfl rfl rfl p.monitorOn_has_write
  | control => exact .of_pq hp hqueue rfl rfl
  | refuse => exact .of_pq hp hqueue rfl rfl

/-! ## One read -/

theorem serve_run_last
    {env : Env} {s : Server} {front rest : List Port} {p : Port}
    (hpq : s.pq = front ++ p :: rest) (hrange : 0 ≤ p.fd ∧ p.fd < fdSetSize)
    (hready : p.fd ∈ s.ps.sel) {line : List Byte}
    (hread : (env.read s p.fd).map (·.take 1000) = some line) (hline : line ≠ [])
    (fuel : ℕ) (prev : Option ℕ) :
    (serve env 1 (fuel + 2) (some front.length) prev 0).run s =
      ((parseIncoming env line front.length).run (s.log (.read p.fd (some line)))).map
        fun result => ((), result.2) := by
  rw [serve_run_command env hpq hrange hready (by decide) hread hline, Prog.run_bind]
  cases (parseIncoming env line front.length).run (s.log (.read p.fd (some line))) with
  | error reason => rfl
  | ok result => simp [advance, serve_run_done, Except.map]

/-- When a single port is ready, the loop passes by the ports before it. -/
theorem serve_run_single
    (env : Env) {s : Server} (hinv : QueueInv s) {p : Port} {line : List Byte}
    (hready : s.ps.sel = {p.fd})
    (hread : (env.read s p.fd).map (·.take 1000) = some line) (hline : line ≠ [])
    {passed front rest : List Port} (hpq : s.pq = passed ++ (front ++ p :: rest)) {fuel : ℕ}
    (hfuel : front.length + 1 < fuel) (prev : Option ℕ) :
    (serve env 1 fuel (cursor passed (front ++ p :: rest)) prev 0).run s =
      ((parseIncoming env line (passed ++ front).length).run
        (s.log (.read p.fd (some line)))).map fun result => ((), result.2) := by
  induction front generalizing passed fuel prev with
  | nil =>
      obtain ⟨fuel, rfl⟩ : ∃ n, fuel = n + 2 := ⟨fuel - 2, by simp at hfuel; omega⟩
      have hrange := hinv.inRange p (by simp [hpq])
      rw [List.append_nil]
      exact serve_run_last hpq hrange (by simp [hready]) hread hline fuel prev
  | cons q front ih =>
      obtain ⟨fuel, rfl⟩ : ∃ n, fuel = n + 1 := ⟨fuel - 1, by omega⟩
      have hq : s.pq[passed.length]? = some q := by simp [hpq]
      have hrange := hinv.inRange q (List.mem_of_getElem? hq)
      have hother : q.fd ∉ s.ps.sel := by
        have hnodup := hinv.distinct
        rw [hpq] at hnodup
        rw [hready, Finset.mem_singleton]
        intro heq
        simp [List.nodup_append, heq] at hnodup
      have hnext : s.pq = (passed ++ [q]) ++ (front ++ p :: rest) := by simp [hpq]
      have hrest := ih hnext (by simp at hfuel ⊢; omega) (some passed.length)
      rw [List.append_assoc, List.singleton_append] at hrest
      rw [← hrest]
      exact serve_run_skip env hpq hrange hother (by decide) fuel prev

/-- `select` reports a single descriptor. -/
def Server.ready (s : Server) (fd : Int) : Server :=
  { s with ps := { s.ps with sel := {fd}, selcount := 1 } }

/-- A call of `port_server` when this chunk waits at this descriptor only. -/
def deliver (env : Env) (fuel : ℕ) (fd : Int) (chunk : List Byte) : Srv Unit := do
  update fun s => s.ready fd
  portServer { env with read := fun _ _ => some chunk } fuel

/-- The chunks arrive one after the other, until the port has been closed. -/
def feed (env : Env) (fuel : ℕ) (fd : Int) : List (List Byte) → Srv Unit
  | [] => return
  | chunk :: chunks => do
      if ← test fun s => fd ∈ s.pq.map Port.fd then
        deliver env fuel fd chunk
        feed env fuel fd chunks

theorem QueueInv.ready {s : Server} (hinv : QueueInv s) (fd : Int) : QueueInv (s.ready fd) :=
  { hinv with }

theorem deliver_run
    (env : Env) {s : Server} (hinv : QueueInv s) {c : ℕ} {p : Port} (hp : s.pq[c]? = some p)
    {chunk : List Byte} (hchunk : chunk ≠ []) (hsize : chunk.length ≤ 1000)
    {fuel : ℕ} (hfuel : s.pq.length < fuel) :
    (deliver env fuel p.fd chunk).run s =
      ((parseIncoming env chunk c).run
        ((s.ready p.fd).log (.read p.fd (some chunk)))).map fun result => ((), result.2) := by
  rcases queue_split hp with ⟨front, rest, hpq, hlen⟩
  have hready : (s.ready p.fd).pq = [] ++ (front ++ p :: rest) := hpq
  have hbound : front.length + 1 < fuel := by
    rw [hpq, List.length_append, List.length_cons] at hfuel
    omega
  have hserve := serve_run_single { env with read := fun _ _ => some chunk }
    (hinv.ready p.fd) rfl (by simp [List.take_of_length_le hsize]) hchunk hready hbound none
  rw [List.nil_append, hlen] at hserve
  simp only [deliver, portServer, Prog.run_bind, run_update, run_look]
  rw [advance_run_none hready]
  exact hserve

theorem feed_run_gone
    (env : Env) (fuel : ℕ) {fd : Int} {s : Server} (hgone : fd ∉ s.pq.map Port.fd)
    (chunks : List (List Byte)) : (feed env fuel fd chunks).run s = .ok ((), s) := by
  cases chunks with
  | nil => rfl
  | cons chunk chunks =>
      rw [feed, Prog.run_bind, run_test]
      simp only [hgone, decide_false]
      rfl

/-! ## The stream as commands and data -/

inductive Stroke
  | command (word : Keyword)
  | data (byte : Byte)
  deriving DecidableEq, Repr

/-- The commands which the reads of a port carry, and the other bytes when it
may write to the control FIFO; nothing follows `close`. -/
def strokes (writes : Bool) : List (List Byte) → List Stroke
  | [] => []
  | chunk :: chunks =>
      match keyword chunk with
      | some .close => [.command .close]
      | some word => .command word :: strokes writes chunks
      | none => (if writes then chunk.map .data else []) ++ strokes writes chunks

def Keyword.text : Keyword → List Byte
  | .monitorOff => bytes "monitor\r"
  | .monitor => bytes "monitor "
  | .close => bytes "close"

theorem keyword_text (word : Keyword) : keyword word.text = some word := by
  cases word with
  | monitorOff => decide
  | monitor => decide
  | close => decide

/-- The server as a machine which takes one command or one byte at a time. -/
def obey (env : Env) (c : ℕ) : List Stroke → Srv Unit
  | [] => return
  | .command word :: rest => do
      if !(← parseIncoming env word.text c) then
        obey env c rest
  | .data byte :: rest => do
      let port ← node c
      let controlfd ← look fun s => s.controlfd
      let _ ← sysWrite env (.parseIncoming port) controlfd [byte]
      obey env c rest

theorem obey_run_data
    (env : Env) {c : ℕ} (text : List Byte) (rest : List Stroke) {t : Server} {p : Port}
    (hp : t.pq[c]? = some p) :
    ∃ next, next.forget = t.forget ∧ next.controlText = t.controlText ++ text ∧
      (obey env c (text.map .data ++ rest)).run t = (obey env c rest).run next := by
  induction text generalizing t with
  | nil => exact ⟨t, rfl, by simp, rfl⟩
  | cons byte text ih =>
      let written := t.log (.write (.parseIncoming p) t.controlfd [byte]
        (env.write t t.controlfd [byte]))
      have hwritten : written.pq[c]? = some p := hp
      rcases ih hwritten with ⟨next, hforget, hcontrol, hrun⟩
      refine ⟨next, hforget, ?_, ?_⟩
      · rw [hcontrol, controlText_log, Event.textTo, if_pos rfl, List.append_assoc,
          List.singleton_append]
      · rw [← hrun]
        simp [obey, node_run hp, sysWrite, written]

theorem parseIncoming_closed
    {env : Env} {line : List Byte} {s next : Server} {c : ℕ} {p : Port} {closed : Bool}
    {word : Keyword} (hinv : QueueInv s) (hp : s.pq[c]? = some p)
    (hline : keyword line = some word)
    (hrun : (parseIncoming env line c).run s = .ok (closed, next)) :
    closed = decide (word = .close) := by
  have hclosed := parseIncoming_closed_iff hp hinv hrun
  rw [hline, Option.some_inj] at hclosed
  rw [Bool.eq_iff_iff, hclosed, decide_eq_true_iff]

/-- A read which `port_server` can hand on, and whose refusal fits its buffer. -/
structure Arrives (writes : Bool) (chunk : List Byte) : Prop where
  nonempty : chunk ≠ []
  size : chunk.length ≤ 1000
  reply : keyword chunk = none → writes = false → (noControlLine chunk).length < 1024

theorem feed_run_cons
    {env : Env} {c fuel : ℕ} {writes : Bool} {chunk : List Byte} (chunks : List (List Byte))
    {s : Server} {p : Port} (hinv : QueueInv s) (hp : s.pq[c]? = some p)
    (harrives : Arrives writes chunk) (hfuel : s.pq.length < fuel) :
    (feed env fuel p.fd (chunk :: chunks)).run s =
      ((parseIncoming env chunk c) >>= fun _ => feed env fuel p.fd chunks).run
        ((s.ready p.fd).log (.read p.fd (some chunk))) := by
  have hqueued : p.fd ∈ s.pq.map Port.fd := List.mem_map_of_mem (List.mem_of_getElem? hp)
  rw [feed, Prog.run_bind, run_test]
  simp only [hqueued, decide_true, if_true, Prog.run_bind]
  rw [deliver_run env hinv hp harrives.nonempty harrives.size hfuel]
  cases (parseIncoming env chunk c).run ((s.ready p.fd).log (.read p.fd (some chunk))) with
  | error reason => rfl
  | ok result => rfl

theorem strokes_of_keyword
    (writes : Bool) {chunk : List Byte} (chunks : List (List Byte)) {word : Keyword}
    (hword : keyword chunk = some word) (hclose : word ≠ .close) :
    strokes writes (chunk :: chunks) = .command word :: strokes writes chunks := by
  rw [strokes, hword]
  cases word with
  | monitorOff => rfl
  | monitor => rfl
  | close => exact absurd rfl hclose

/-- The reads have the effect of their commands and their data. -/
theorem feed_agree
    {env : Env} (hworld : env.Forgetful) {c fuel : ℕ} {fd : Int} {writes : Bool}
    {chunks : List (List Byte)} (hchunks : ∀ chunk ∈ chunks, Arrives writes chunk)
    {s t : Server} (halike : Alike s t) (hinv : QueueInv s)
    (hport : ∃ p, s.pq[c]? = some p ∧ p.fd = fd ∧ p.has flagWrite = writes)
    (happart : fd ≠ s.controlfd) (hfuel : s.pq.length < fuel) :
    Prog.Agree Alike ((feed env fuel fd chunks).run s)
      ((obey env c (strokes writes chunks)).run t) := by
  induction chunks generalizing s t with
  | nil => exact .ok halike
  | cons chunk chunks ih =>
      rcases hport with ⟨p, hp, hfd, hwrites⟩
      subst fd
      have harrives := hchunks chunk (List.mem_cons_self ..)
      have hrest : ∀ other ∈ chunks, Arrives writes other := by
        intro other hother
        exact hchunks other (List.mem_cons_of_mem chunk hother)
      let received := (s.ready p.fd).log (.read p.fd (some chunk))
      have hreceived : Alike received s := ⟨rfl, (alike_read (s.ready p.fd) _ _).control⟩
      have hnode : received.pq[c]? = some p := hp
      have hqueue : QueueInv received := (hinv.ready p.fd).log _
      have hcontinue : ∀ next last, (parseIncoming env chunk c).run received = .ok (false, next) →
          Alike next last → Prog.Agree Alike ((feed env fuel p.fd chunks).run next)
            ((obey env c (strokes writes chunks)).run last) := by
        intro next last hrun hafter
        rcases parseIncoming_cases hrun with ⟨q, hq, hcommand⟩
        rw [hnode] at hq
        cases hq
        have hcontinues := hcommand.continues hqueue hnode
        rcases hcontinues.port with ⟨q, hq, hfd, hwrite⟩
        refine ih hrest hafter hcontinues.queue ⟨q, hq, hfd, hwrite.trans hwrites⟩ ?_ ?_
        · rw [hcontinues.controlfd]
          exact happart
        · rw [hcontinues.length]
          exact hfuel
      rw [feed_run_cons chunks hinv hp harrives hfuel]
      cases hword : keyword chunk with
      | some word =>
          have hparse := parseIncoming_alike hworld (hreceived.trans halike) hqueue hnode
            hword (keyword_text word)
          by_cases hclose : word = .close
          · subst word
            rw [strokes, hword]
            refine hparse.bind ?_
            intro closed next last hrun hafter
            rw [parseIncoming_run_close hnode hqueue hword] at hrun
            cases hrun
            rw [feed_run_gone env fuel (hqueue.fd_not_mem_closed hnode)]
            exact .ok hafter
          · rw [strokes_of_keyword writes chunks hword hclose]
            refine hparse.bind ?_
            intro closed next last hrun hafter
            have hclosed := parseIncoming_closed hqueue hnode hword hrun
            rw [decide_eq_false hclose] at hclosed
            subst closed
            exact hcontinue next last hrun hafter
      | none =>
          have hrun : (parseIncoming env chunk c).run received = _ :=
            parseIncoming_run_other hnode hword
          have hstrokes : strokes writes (chunk :: chunks) =
              (if writes then chunk.map .data else []) ++ strokes writes chunks := by
            rw [strokes, hword]
          rw [hstrokes]
          by_cases hwrite : p.has flagWrite
          · have hallowed : writes = true := by rw [← hwrites, hwrite]
            rw [if_pos hwrite] at hrun
            have hp' : t.pq[c]? = some p := by rw [← halike.pq]; exact hp
            rcases obey_run_data env chunk (strokes writes chunks) hp' with
              ⟨last, hforget, hcontrol, hobey⟩
            have hafter := (hreceived.trans halike)
            rw [if_pos hallowed, hobey, Prog.run_bind, hrun]
            refine hcontinue _ last hrun ⟨?_, ?_⟩
            · rw [hforget]
              exact hafter.forget
            · rw [controlText_log, Event.textTo, if_pos rfl, hcontrol, hafter.control]
          · have hrefused : writes = false := by
              rw [← hwrites]
              simpa using hwrite
            rw [if_neg hwrite, if_pos (harrives.reply hword hrefused)] at hrun
            rw [hrefused, if_neg (by simp), List.nil_append, ← hrefused, Prog.run_bind, hrun]
            refine hcontinue _ t hrun ?_
            exact (alike_write_elsewhere received _ _ _ happart).trans
              (hreceived.trans halike)

/-! ## Termination -/

theorem monitorOpen_error
    {env : Env} {s : Server} {reason : Halt}
    (hrun : (monitorOpen env).run s = .error reason) : reason ≠ .unfinished := by
  by_cases hclosed : s.monitorfd = -1
  · by_cases hpath : (env.tmpnam s).length < 255
    · by_cases hopen :
          ∃ fd, env.openMonitor { s with monitor := env.tmpnam s } = some fd ∧ s.fresh fd
      · rcases hopen with ⟨fd, hfd, hfresh⟩
        rw [monitorOpen_run_fresh hclosed hpath hfd hfresh] at hrun
        split at hrun
        · cases hrun
        · cases hrun
          simp
      · have hfailed : ∀ fd, env.openMonitor { s with monitor := env.tmpnam s } = some fd →
            ¬ s.fresh fd := by
          intro fd hfd hfresh
          exact hopen ⟨fd, hfd, hfresh⟩
        rw [monitorOpen_run_failed hclosed hpath hfailed] at hrun
        cases hrun
    · rw [monitorOpen_run_long hclosed hpath] at hrun
      cases hrun
      simp
  · rw [monitorOpen_run_open env hclosed] at hrun
    cases hrun

theorem parseIncoming_error
    {env : Env} {line : List Byte} {s : Server} {c : ℕ} {p : Port} {reason : Halt}
    {word : Keyword} (hinv : QueueInv s) (hp : s.pq[c]? = some p)
    (hline : keyword line = some word)
    (hrun : (parseIncoming env line c).run s = .error reason) : reason ≠ .unfinished := by
  cases word with
  | monitorOff =>
      rw [parseIncoming_run_monitorOff hp hline] at hrun
      cases hrun
  | monitor =>
      rw [parseIncoming_run_monitor hp hline] at hrun
      split at hrun
      · cases hrun
      split at hrun
      · cases hopen : (monitorOpen env).run (s.monitorOn c) with
        | error other =>
            rw [hopen] at hrun
            cases hrun
            exact monitorOpen_error hopen
        | ok result =>
            rw [hopen] at hrun
            cases hrun
      · cases hrun
  | close =>
      rw [parseIncoming_run_close hp hinv hline] at hrun
      cases hrun

theorem obey_error
    {env : Env} {c : ℕ} {rest : List Stroke} {s : Server} {reason : Halt}
    (hinv : QueueInv s) (hport : c < s.pq.length)
    (hrun : (obey env c rest).run s = .error reason) : reason ≠ .unfinished := by
  induction rest generalizing s with
  | nil => cases hrun
  | cons stroke rest ih =>
      have hp : s.pq[c]? = some s.pq[c] := List.getElem?_eq_getElem hport
      cases stroke with
      | data byte =>
          simp only [obey, Prog.run_bind, node_run hp, run_look, sysWrite, Prog.run_act] at hrun
          exact ih (hinv.log _) hport hrun
      | command word =>
          rw [obey, Prog.run_bind] at hrun
          cases hparse : (parseIncoming env word.text c).run s with
          | error other =>
              rw [hparse] at hrun
              cases hrun
              exact parseIncoming_error hinv hp (keyword_text word) hparse
          | ok result =>
              rw [hparse] at hrun
              rcases result with ⟨closed, next⟩
              cases closed with
              | true => cases hrun
              | false =>
                  rcases parseIncoming_cases hparse with ⟨q, hq, hcommand⟩
                  have hcontinues := hcommand.continues hinv hq
                  apply ih hcontinues.queue _ hrun
                  rw [hcontinues.length]
                  exact hport

/-! ## The outcome -/

/-- What becomes of a connection: whether it monitors, unless it has been
closed, the number of monitoring ports, and the bytes for the control FIFO. -/
structure Outcome where
  monitoring : Option Bool
  monitorcount : Int
  control : List Byte
  deriving DecidableEq, Repr

def Server.outcome (s : Server) (fd : Int) : Outcome where
  monitoring := (s.pq.find? (·.fd = fd)).map (·.has flagMonitor)
  monitorcount := s.monitorcount
  control := s.controlText

theorem Alike.outcome {s t : Server} (h : Alike s t) (fd : Int) :
    s.outcome fd = t.outcome fd := by
  rw [Server.outcome, Server.outcome, h.pq, h.control, h.congr Server.monitorcount fun _ => rfl]

/-- Two cuttings with the same commands and the same data in between have the
same outcome. -/
theorem outcome_eq_of_strokes
    (env : Env) (hworld : env.Forgetful) (s : Server) (hinv : QueueInv s)
    (happart : PortsApart s) (p : Port) (hp : p ∈ s.pq) (first second : List (List Byte))
    (hfirst : ∀ chunk ∈ first, Arrives (p.has flagWrite) chunk)
    (hsecond : ∀ chunk ∈ second, Arrives (p.has flagWrite) chunk)
    (hstrokes : strokes (p.has flagWrite) first = strokes (p.has flagWrite) second) :
    ∃ outcome : Except Halt Outcome, outcome ≠ .error .unfinished ∧
      ∀ fuel, s.pq.length < fuel →
        ((feed env fuel p.fd first).run s).map (·.2.outcome p.fd) = outcome ∧
        ((feed env fuel p.fd second).run s).map (·.2.outcome p.fd) = outcome := by
  rcases List.getElem?_of_mem hp with ⟨c, hc⟩
  have hobserve : ∀ a b, Alike a b → a.outcome p.fd = b.outcome p.fd := by
    intro a b hab
    exact hab.outcome p.fd
  have hself : Alike s s := ⟨rfl, rfl⟩
  let obeyed := (obey env c (strokes (p.has flagWrite) first)).run s
  refine ⟨obeyed.map (·.2.outcome p.fd), ?_, ?_⟩
  · cases hrun : obeyed with
    | ok result => simp [Except.map]
    | error reason =>
        have hlength : c < s.pq.length := (List.getElem?_eq_some_iff.mp hc).1
        have hreason := obey_error hinv hlength hrun
        simpa [Except.map] using hreason
  · intro fuel hfuel
    have hport : ∃ q, s.pq[c]? = some q ∧ q.fd = p.fd ∧
        q.has flagWrite = p.has flagWrite := ⟨p, hc, rfl, rfl⟩
    constructor
    · exact (feed_agree hworld hfirst hself hinv hport (happart p hp) hfuel).map_eq hobserve
    · have hagree := feed_agree hworld hsecond hself hinv hport (happart p hp) hfuel
      rw [← hstrokes] at hagree
      exact hagree.map_eq hobserve

/-- A connection with full access. -/
def controller : Port :=
  { fd := 7, sa := ⟨0x7f000001, 1024⟩, flag := flagRead ||| flagWrite, userid := none }

def Server.controlled : Server :=
  finalState ((portEnqueue .obliging controller).run
    (finalState ((start .obliging).run .blank)))

theorem controlled_queueInv : QueueInv .controlled := by
  let started := finalState ((start .obliging).run .blank)
  have hstart : (start .obliging).run .blank = .ok ((), started) := by decide
  have hqueued : (portEnqueue .obliging controller).run started = .ok (true, .controlled) := by
    decide
  have hstep : PortStep started .controlled :=
    .portEnqueue (by decide) (by decide) (by decide) hqueued
  exact ((start_cases hstart).repInv.portStep hstep).toQueueInv

theorem obliging_forgetful : Env.Forgetful .obliging := by
  intro s t h
  have hkernel : s.forget.kernel = t.forget.kernel := by rw [h]
  have hnext : nextFd s = nextFd t := by
    unfold nextFd
    exact congrArg (fun fds : Finset Int => ((fds.sup Int.toNat : ℕ) : Int) + 1) hkernel
  exact ⟨rfl, congrArg some hnext⟩

/-- A command for diald which has been cut in two arrives. -/
theorem outcome_eq_of_strokes_controlled :
    ((feed .obliging 2 7 [bytes "monitor on\n", bytes "blo", bytes "ck\n"]).run
        .controlled).map (·.2.outcome 7) =
      ((feed .obliging 2 7 [bytes "monitor on\n", bytes "block\n"]).run
        .controlled).map (·.2.outcome 7) := by
  have hfirst : ∀ chunk ∈ [bytes "monitor on\n", bytes "blo", bytes "ck\n"],
      Arrives (controller.has flagWrite) chunk := by
    simp only [List.forall_mem_cons]
    exact ⟨⟨by decide, by decide, by decide⟩, ⟨by decide, by decide, by decide⟩,
      ⟨by decide, by decide, by decide⟩, by simp⟩
  have hsecond : ∀ chunk ∈ [bytes "monitor on\n", bytes "block\n"],
      Arrives (controller.has flagWrite) chunk := by
    simp only [List.forall_mem_cons]
    exact ⟨⟨by decide, by decide, by decide⟩, ⟨by decide, by decide, by decide⟩, by simp⟩
  have happart : PortsApart .controlled := by
    unfold PortsApart
    decide
  rcases outcome_eq_of_strokes .obliging obliging_forgetful .controlled controlled_queueInv
    happart controller (by decide) _ _ hfirst hsecond (by decide) with ⟨outcome, _, hruns⟩
  have hboth := hruns 2 (by decide)
  exact hboth.1.trans hboth.2.symm

/-- A command behind another one in the same read is lost. -/
theorem exists_lost_command :
    ∃ (env : Env) (s t : Server) (p : Port) (lines first second : List (List Byte))
      (fuel : ℕ) (kept lost : Outcome),
      (start env).run Server.blank = .ok ((), s) ∧ (portDaemon env).run s = .ok ((), t) ∧
      p ∈ t.pq ∧ (∀ line ∈ lines, newline ∉ line ∧ line.length < 1000) ∧
      (∀ chunk ∈ first ++ second, 1 ≤ chunk.length ∧ chunk.length ≤ 1000) ∧
      first.flatten = lines.flatMap (· ++ [newline]) ∧
      second.flatten = lines.flatMap (· ++ [newline]) ∧ t.pq.length < fuel ∧
      ((feed env fuel p.fd first).run t).map (·.2.outcome p.fd) = .ok kept ∧
      ((feed env fuel p.fd second).run t).map (·.2.outcome p.fd) = .ok lost ∧
      kept.control ≠ lost.control := by
  let started := finalState ((start .trusting).run .blank)
  let admitted := finalState ((portDaemon .trusting).run started)
  let first := [bytes "monitor on\n", bytes "up\n"]
  let second := [bytes "monitor on\nup\n"]
  let kept := (finalState ((feed .trusting 2 3 first).run admitted)).outcome 3
  let lost := (finalState ((feed .trusting 2 3 second).run admitted)).outcome 3
  refine ⟨.trusting, started, admitted,
    ⟨3, ⟨0x7f000001, 1024⟩, flagRead ||| flagWrite, some (bytes "alice")⟩,
    [bytes "monitor on", bytes "up"], first, second, 2, kept, lost, ?_⟩
  refine ⟨by decide +kernel, by decide +kernel, by decide +kernel, by decide, by decide,
    by decide, by decide, by decide +kernel, by decide +kernel, by decide +kernel, ?_⟩
  decide +kernel

end DialdTop
