import Aesd.Server.Threads

/-! # What one move can do

The moves of the handlers and of the timer threads as relations, one case for each
outcome. Every invariant of the server is proved by cases on these.
-/
namespace Aesd.Server
open CharDevice Kernel CString Interleaving

/-- The outcomes of a move of the handler self in the state c. -/
inductive HandlerStep (charDevice : Bool) (self : ℕ) (sh : Shared) (c : Conn) : Move → Conn → Shared → Prop
  | accept {fd : ℤ} {junk : ℕ → UInt8} (hpc : c.pc = .idle) (hfd : 0 ≤ fd) (hfree : sh.fds fd = none) :
    HandlerStep charDevice self sh c (.accept fd true junk)
      { Conn.fresh with
        pc := .start, logs := 1, clientFd := fd, buffer := (List.range bufferSize).map junk,
        maxbuflen := UInt64.ofNat bufferSize } (sh.claim fd (.handler self))
  | refuse {fd : ℤ} {junk : ℕ → UInt8} (hpc : c.pc = .idle) (hfd : 0 ≤ fd) (hfree : sh.fds fd = none) :
    HandlerStep charDevice self sh c (.accept fd false junk)
      { Conn.fresh with pc := .refused, clientFd := fd } (sh.claim fd (.handler self))
  | syslog (hlogs : 0 < c.logs) :
    HandlerStep charDevice self sh c .syslog
      { c with logs := c.logs - 1, argsDataFd := if c.pc = .seek then c.dataFd else c.argsDataFd } sh
  | requestCancel (hidle : c.pc ≠ .idle) (hrefused : c.pc ≠ .refused) :
    HandlerStep charDevice self sh c .requestCancel { c with cancelRequested := true } sh
  | cancelInCleanup (hreq : c.cancelRequested = true) (hnot : c.cancelled = false)
      (hpoint : c.atCancellationPoint charDevice = true) (hin : c.inCleanup = true) :
    HandlerStep charDevice self sh c .cancel { c with pc := .done, logs := 0, cancelled := true } sh
  | cancel (hreq : c.cancelRequested = true) (hnot : c.cancelled = false)
      (hpoint : c.atCancellationPoint charDevice = true) (hin : c.inCleanup = false)
      (hbefore : c.beforePoint charDevice = .ok ()) :
    HandlerStep charDevice self sh c .cancel { c with pc := .closeClient, logs := 0, cancelled := true } sh
  | start (hlogs : c.logs = 0) (hpc : c.pc = .start) :
    HandlerStep charDevice self sh c (.call .start)
      { c with pc := .recv, buflen := 0, buffer := c.buffer.set 0 0 } sh
  | recvEnd (hlogs : c.logs = 0) (hpc : c.pc = .recv) :
    HandlerStep charDevice self sh c (.call (.recv none)) { c with pc := .closeClient } sh
  | recv {bytes : List UInt8} (hlogs : c.logs = 0) (hpc : c.pc = .recv) (hne : bytes ≠ [])
      (hlen : bytes.length ≤ bufferSize) :
    HandlerStep charDevice self sh c (.call (.recv (some bytes)))
      { c with pc := .openFile, recvBuf := bytes } (sh.record (.received self bytes))
  | openFailed {fd : ℤ} (hlogs : c.logs = 0) (hpc : c.pc = .openFile) (hfd : fd < 0) :
    HandlerStep charDevice self sh c (.call (.openFile fd))
      { c with pc := .seek, logs := 1, dataFd := fd, fPos := 0 } (sh.record (.opened (.handler self) fd))
  | openFile {fd : ℤ} (hlogs : c.logs = 0) (hpc : c.pc = .openFile) (hfd : 0 ≤ fd)
      (hfree : sh.fds fd = none) :
    HandlerStep charDevice self sh c (.call (.openFile fd))
      { c with pc := .seek, dataFd := fd, argsDataFd := fd, fPos := 0 }
      ((sh.record (.opened (.handler self) fd)).claim fd (.handler self))
  | seek {ok : Bool} {rc : ℤ} {fPos : ℕ} (hlogs : c.logs = 0) (hpc : c.pc = .seek)
      (hadjust : adjustDatafilePos charDevice ok sh.data c.dataFd c.fPos 0 .fromEnd = (rc,fPos))
      (hrc : -1 < rc) :
    HandlerStep charDevice self sh c (.call (.seek ok)) { c with pc := .stage, fPos := fPos }
      (sh.record (.sought (.handler self)))
  | seekFailed {ok : Bool} {rc : ℤ} {fPos : ℕ} (hlogs : c.logs = 0) (hpc : c.pc = .seek)
      (hadjust : adjustDatafilePos charDevice ok sh.data c.dataFd c.fPos 0 .fromEnd = (rc,fPos))
      (hrc : rc ≤ -1) :
    HandlerStep charDevice self sh c (.call (.seek ok))
      { c with pc := .closeClient, fPos := fPos, logs := if rc = -1 then 2 else 1 } sh
  | stage {env : ReallocEnv} {buffer : List UInt8} {maxbuflen : UInt64} (hlogs : c.logs = 0)
      (hpc : c.pc = .stage)
      (happend : appendString env c.buffer c.maxbuflen c.buflen c.recvBuf c.currlen =
        .ok (buffer,maxbuflen)) :
    HandlerStep charDevice self sh c (.call (.stage env))
      { c with
        pc := if c.hasNl then .lock else .recv, buffer := buffer, maxbuflen := maxbuflen,
        buflen := c.buflen + UInt64.ofNat c.currlen } sh
  | lock (hlogs : c.logs = 0) (hpc : c.pc = .lock) (hfree : sh.mutex = none) :
    HandlerStep charDevice self sh c (.call (.lock 0)) { c with pc := .append, rc := 0 }
      { sh with mutex := some (.handler self) }
  | lockFailed {rc : ℕ} (hlogs : c.logs = 0) (hpc : c.pc = .lock) (hrc : rc ≠ 0) :
    HandlerStep charDevice self sh c (.call (.lock rc)) { c with pc := .closeClient, logs := 1, rc := rc } sh
  | append {env : AppendEnv} {payload : List UInt8} {r : AppendResult} (hlogs : c.logs = 0)
      (hpc : c.pc = .append) (hpayload : cstr c.buffer = some payload)
      (happend : appendDatafile charDevice env sh.data c.dataFd c.fPos c.buffer
        (intOf payload.length) = .ok r) :
    HandlerStep charDevice self sh c (.call (.append env))
      { c with
        pc := .rewind, logs := if r.failed then 1 else 0, fPos := r.fPos, buffer := c.buffer.set 0 0,
        buflen := 0 }
      ({ sh with data := r.data }.record (.appended (.handler self) payload r.accepted))
  | rewind {ok : Bool} {rc : ℤ} {fPos : ℕ} (hlogs : c.logs = 0) (hpc : c.pc = .rewind)
      (hadjust : adjustDatafilePos charDevice ok sh.data c.dataFd c.fPos 0 .set = (rc,fPos)) :
    HandlerStep charDevice self sh c (.call (.rewind ok))
      { c with pc := .read, fPos := fPos, logs := if rc = -1 then 1 else 0 } sh
  | read {env : ReadOutcome} {m : ℤ} {data : List UInt8} {fPos : ℕ} (hlogs : c.logs = 0)
      (hpc : c.pc = .read) (hread : readDatafile charDevice env sh.data c.dataFd c.fPos = .ok (m,data,fPos))
      (hm : 0 < m) :
    HandlerStep charDevice self sh c (.call (.read env))
      { c with pc := .send, readbuf := data, fPos := fPos } sh
  | readEnd {env : ReadOutcome} {m : ℤ} {data : List UInt8} {fPos : ℕ} (hlogs : c.logs = 0)
      (hpc : c.pc = .read) (hread : readDatafile charDevice env sh.data c.dataFd c.fPos = .ok (m,data,fPos))
      (hm : m ≤ 0) :
    HandlerStep charDevice self sh c (.call (.read env)) { c with pc := .unlock, fPos := fPos, rc := 0 } sh
  | sendFailed {rc : ℤ} (hlogs : c.logs = 0) (hpc : c.pc = .send) (hrc : rc < 0) :
    HandlerStep charDevice self sh c (.call (.send rc)) { c with pc := .closeClient, logs := 1, rc := rc } sh
  | send {rc : ℤ} (hlogs : c.logs = 0) (hpc : c.pc = .send) (hrc : 0 ≤ rc) (hle : rc ≤ c.readbuf.length) :
    HandlerStep charDevice self sh c (.call (.send rc)) { c with pc := .read }
      (sh.record (.sent self (c.readbuf.take rc.toNat)))
  | unlock (hlogs : c.logs = 0) (hpc : c.pc = .unlock) (hown : sh.mutex = some (.handler self)) :
    HandlerStep charDevice self sh c (.call .unlock) { c with pc := .rest, rc := 0 }
      (sh.unlock (.handler self))
  | unlockFailed (hlogs : c.logs = 0) (hpc : c.pc = .unlock) (hown : sh.mutex ≠ some (.handler self)) :
    HandlerStep charDevice self sh c (.call .unlock) { c with pc := .closeClient, logs := 1, rc := EPERM } sh
  | rest {env : ReallocEnv} {buffer : List UInt8} {maxbuflen : UInt64} (hlogs : c.logs = 0)
      (hpc : c.pc = .rest)
      (happend : appendString env c.buffer c.maxbuflen
        (UInt64.ofNat (c.recvBuf.length - c.newlineAt - 1)) (c.recvBuf.drop (c.newlineAt + 1))
        (c.recvBuf.length - c.newlineAt - 1) = .ok (buffer,maxbuflen)) :
    HandlerStep charDevice self sh c (.call (.rest env))
      { c with
        pc := .recv, buffer := buffer, maxbuflen := maxbuflen,
        buflen := UInt64.ofNat (c.recvBuf.length - c.newlineAt - 1) } sh
  | closeClient (hlogs : c.logs = 0) (hpc : c.pc = .closeClient) :
    HandlerStep charDevice self sh c (.call .closeClient) { c with pc := .closeData, logs := 1 }
      (sh.close (.handler self) c.clientFd)
  | closeData {ok : Bool} (hlogs : c.logs = 0) (hpc : c.pc = .closeData) (hfd : 0 < c.argsDataFd) :
    HandlerStep charDevice self sh c (.call (.closeData ok))
      { c with pc := .release, logs := if ok then 0 else 1 } (sh.close (.handler self) c.argsDataFd)
  | skipData {ok : Bool} (hlogs : c.logs = 0) (hpc : c.pc = .closeData) (hfd : c.argsDataFd ≤ 0) :
    HandlerStep charDevice self sh c (.call (.closeData ok)) { c with pc := .release } sh
  | release (hlogs : c.logs = 0) (hpc : c.pc = .release) :
    HandlerStep charDevice self sh c (.call .release) { c with pc := .done } (sh.unlock (.handler self))

/-- The outcomes of a move of the timer thread self. -/
inductive TimerStep (charDevice : Bool) (self : ℕ) (sh : Shared) (t : Timer) :
    TimerCall → Timer → Shared → Prop
  | lock (hpc : t.pc = .lock) (hfree : sh.mutex = none) :
    TimerStep charDevice self sh t (.lock 0) { t with pc := .gettime }
      { sh with mutex := some (.timer self) }
  | lockFailed {rc : ℕ} (hpc : t.pc = .lock) (hrc : rc ≠ 0) :
    TimerStep charDevice self sh t (.lock rc) { t with pc := .done } sh
  | gettimeFailed (hpc : t.pc = .gettime) :
    TimerStep charDevice self sh t (.gettime none) { t with pc := .unlock } sh
  | gettime {dt : List UInt8} (hpc : t.pc = .gettime) (hlen : dt.length < dtSize) (hnul : 0 ∉ dt) :
    TimerStep charDevice self sh t (.gettime (some dt))
      { t with pc := .openFile, tsRow := timestampText ++ dt ++ [newline,0] } sh
  | openFailed {fd : ℤ} (hpc : t.pc = .openFile) (hfd : fd < 0) :
    TimerStep charDevice self sh t (.openFile fd) { t with pc := .seek, fd := fd, fPos := 0 }
      (sh.record (.opened (.timer self) fd))
  | openFile {fd : ℤ} (hpc : t.pc = .openFile) (hfd : 0 ≤ fd) (hfree : sh.fds fd = none) :
    TimerStep charDevice self sh t (.openFile fd) { t with pc := .seek, fd := fd, fPos := 0 }
      ((sh.record (.opened (.timer self) fd)).claim fd (.timer self))
  | seek {ok : Bool} {rc : ℤ} {fPos : ℕ} (hpc : t.pc = .seek)
      (hadjust : adjustDatafilePos charDevice ok sh.data t.fd t.fPos 0 .fromEnd = (rc,fPos))
      (hrc : -1 < rc) :
    TimerStep charDevice self sh t (.seek ok) { t with pc := .append, fPos := fPos }
      (sh.record (.sought (.timer self)))
  | seekFailed {ok : Bool} {rc : ℤ} {fPos : ℕ} (hpc : t.pc = .seek)
      (hadjust : adjustDatafilePos charDevice ok sh.data t.fd t.fPos 0 .fromEnd = (rc,fPos))
      (hrc : rc ≤ -1) :
    TimerStep charDevice self sh t (.seek ok) { t with pc := .close, fPos := fPos } sh
  | append {env : AppendEnv} {payload : List UInt8} {r : AppendResult} (hpc : t.pc = .append)
      (hpayload : cstr t.tsRow = some payload)
      (happend : appendDatafile charDevice env sh.data t.fd t.fPos t.tsRow
        (intOf payload.length) = .ok r) :
    TimerStep charDevice self sh t (.append env) { t with pc := .close, fPos := r.fPos }
      ({ sh with data := r.data }.record (.appended (.timer self) payload r.accepted))
  | close (hpc : t.pc = .close) (hfd : 0 < t.fd) :
    TimerStep charDevice self sh t .close { t with pc := .unlock } (sh.close (.timer self) t.fd)
  | skipClose (hpc : t.pc = .close) (hfd : t.fd ≤ 0) :
    TimerStep charDevice self sh t .close { t with pc := .unlock } sh
  | unlock (hpc : t.pc = .unlock) :
    TimerStep charDevice self sh t .unlock { t with pc := .done } (sh.unlock (.timer self))

theorem orFault_eq_ok {α : Type} {x : Except Fault α} {a : α} : orFault x = .ok a ↔ x = .ok a := by
  cases x <;> simp [orFault,Except.mapError]

theorem inBounds_eq_ok {α : Type} {x : Option α} {a : α} : inBounds x = .ok a ↔ x = some a := by
  cases x <;> simp [inBounds]

variable {charDevice : Bool}

theorem handlerStep_of_perform {self : ℕ} {sh sh' : Shared} {c c' : Conn} {k : Call}
    (hlogs : c.logs = 0) (hpc : c.pc = k.pc) (h : perform charDevice self sh c k = .ok (c',sh')) :
    HandlerStep charDevice self sh c (.call k) c' sh' := by
  cases k with
  | start =>
    cases h
    exact .start hlogs hpc
  | recv bytes =>
    cases bytes with
    | none =>
      cases h
      exact .recvEnd hlogs hpc
    | some bytes =>
      simp only [perform] at h
      split at h
      · cases h
      · rename_i hb
        cases h
        exact .recv hlogs hpc (fun h => hb (Or.inl h)) (by omega)
  | openFile fd =>
    simp only [perform] at h
    split at h
    · cases h
      exact .openFailed hlogs hpc ‹_›
    · split at h
      · cases h
      · rename_i hfd hfree
        cases h
        exact .openFile hlogs hpc (by omega) (by simpa using hfree)
  | seek ok =>
    simp only [perform] at h
    split at h
    · cases h
      exact .seek hlogs hpc rfl ‹_›
    · rename_i hrc
      cases h
      exact .seekFailed hlogs hpc rfl (not_lt.mp hrc)
  | stage env =>
    obtain ⟨v,hv,h⟩ := bind_eq_ok.mp h
    cases h
    exact .stage hlogs hpc (orFault_eq_ok.mp hv)
  | lock rc =>
    simp only [perform] at h
    split at h
    · split at h
      · subst ‹rc = 0›
        cases h
        exact .lock hlogs hpc ‹_›
      · cases h
    · cases h
      exact .lockFailed hlogs hpc ‹_›
  | append env =>
    obtain ⟨payload,hp,h⟩ := bind_eq_ok.mp h
    obtain ⟨r,hr,h⟩ := bind_eq_ok.mp h
    cases h
    exact .append hlogs hpc (inBounds_eq_ok.mp (orFault_eq_ok.mp hp)) (orFault_eq_ok.mp hr)
  | rewind ok =>
    cases h
    exact .rewind hlogs hpc rfl
  | read env =>
    obtain ⟨⟨m,data,fPos⟩,hv,h⟩ := bind_eq_ok.mp h
    dsimp only at h
    split at h
    · cases h
      exact .read hlogs hpc (orFault_eq_ok.mp hv) ‹_›
    · cases h
      exact .readEnd hlogs hpc (orFault_eq_ok.mp hv) (by omega)
  | send rc =>
    simp only [perform] at h
    split at h
    · cases h
    · split at h
      · cases h
        exact .sendFailed hlogs hpc ‹_›
      · cases h
        exact .send hlogs hpc (by omega) (by omega)
  | unlock =>
    simp only [perform] at h
    split at h
    · cases h
      exact .unlock hlogs hpc ‹_›
    · cases h
      exact .unlockFailed hlogs hpc ‹_›
  | rest env =>
    obtain ⟨v,hv,h⟩ := bind_eq_ok.mp h
    cases h
    exact .rest hlogs hpc (orFault_eq_ok.mp hv)
  | closeClient =>
    cases h
    exact .closeClient hlogs hpc
  | closeData ok =>
    simp only [perform] at h
    split at h
    · cases h
      exact .closeData hlogs hpc ‹_›
    · cases h
      exact .skipData hlogs hpc (by omega)
  | release =>
    cases h
    exact .release hlogs hpc

theorem handlerMove_cases {self : ℕ} {sh sh' : Shared} {c c' : Conn} {m : Move}
    (h : handlerMove charDevice self sh c m = .ok (c',sh')) :
    HandlerStep charDevice self sh c m c' sh' := by
  cases m with
  | accept fd created junk =>
    simp only [handlerMove] at h
    split at h
    case isFalse => cases h
    case isTrue hg =>
      obtain ⟨hpc,hfd,hfree⟩ := hg
      cases created with
      | true =>
        cases h
        exact .accept hpc hfd hfree
      | false =>
        cases h
        exact .refuse hpc hfd hfree
  | syslog =>
    simp only [handlerMove] at h
    split at h
    · cases h
      exact .syslog ‹_›
    · cases h
  | requestCancel =>
    simp only [handlerMove] at h
    split at h
    · cases h
    · rename_i hpc
      cases h
      simp only [List.mem_cons,List.not_mem_nil,or_false,not_or] at hpc
      exact .requestCancel hpc.1 hpc.2
  | cancel =>
    simp only [handlerMove] at h
    split at h
    case isFalse => cases h
    case isTrue hg =>
      obtain ⟨hreq,hnot,hpoint⟩ := hg
      split at h
      · cases h
        exact .cancelInCleanup hreq hnot hpoint ‹_›
      · rename_i hin
        obtain ⟨⟨⟩,hbefore,h⟩ := bind_eq_ok.mp h
        cases h
        exact .cancel hreq hnot hpoint (Bool.eq_false_iff.mpr hin) (orFault_eq_ok.mp hbefore)
  | call k =>
    simp only [handlerMove] at h
    split at h
    · exact handlerStep_of_perform (And.left ‹_›) (And.right ‹_›) h
    · cases h

theorem timerMove_cases {self : ℕ} {sh sh' : Shared} {t t' : Timer} {k : TimerCall}
    (h : timerMove charDevice self sh t k = .ok (t',sh')) :
    charDevice = false ∧ TimerStep charDevice self sh t k t' sh' := by
  unfold timerMove at h
  split at h
  case isFalse => cases h
  case isTrue hg =>
    obtain ⟨hplain,hpc⟩ := hg
    refine ⟨hplain,?_⟩
    cases k with
    | lock rc =>
      simp only [timerCall] at h
      split at h
      · split at h
        · subst ‹rc = 0›
          cases h
          exact .lock hpc ‹_›
        · cases h
      · cases h
        exact .lockFailed hpc ‹_›
    | gettime dt =>
      cases dt with
      | none =>
        cases h
        exact .gettimeFailed hpc
      | some dt =>
        simp only [timerCall] at h
        split at h
        · cases h
        · rename_i hdt
          cases h
          exact .gettime hpc (by omega) (fun h => hdt (Or.inr h))
    | openFile fd =>
      simp only [timerCall] at h
      split at h
      · cases h
        exact .openFailed hpc ‹_›
      · split at h
        · cases h
        · rename_i hfd hfree
          cases h
          exact .openFile hpc (by omega) (by simpa using hfree)
    | seek ok =>
      simp only [timerCall] at h
      split at h
      · cases h
        exact .seek hpc rfl ‹_›
      · rename_i hrc
        cases h
        exact .seekFailed hpc rfl (not_lt.mp hrc)
    | append env =>
      obtain ⟨payload,hp,h⟩ := bind_eq_ok.mp h
      obtain ⟨r,hr,h⟩ := bind_eq_ok.mp h
      cases h
      exact .append hpc (inBounds_eq_ok.mp (orFault_eq_ok.mp hp)) (orFault_eq_ok.mp hr)
    | close =>
      simp only [timerCall] at h
      split at h
      · cases h
        exact .close hpc ‹_›
      · cases h
        exact .skipClose hpc (by omega)
    | unlock =>
      cases h
      exact .unlock hpc

theorem handlerStep_of_move {c : ℕ} {sh sh' : Shared} {x x' : Conn} {m : Move}
    (h : move charDevice (.handler c) sh x m = .ok (x',sh')) : HandlerStep charDevice c sh x m x' sh' :=
  handlerMove_cases h

theorem timerStep_of_move {t : ℕ} {sh sh' : Shared} {x x' : Timer} {k : TimerCall}
    (h : move charDevice (.timer t) sh x k = .ok (x',sh')) :
    charDevice = false ∧ TimerStep charDevice t sh x k x' sh' := timerMove_cases h

/-- What the moves of the handlers establish for themselves, and all moves leave to the
other handlers, holds after a step. -/
theorem everywhere_of_step {P : (i : Thread) → Shared → Local i → Prop} {s s' : Sys} {l : Label}
    (htimer : ∀ t sh x, P (.timer t) sh x)
    (own : ∀ c m x sh, l = ⟨.handler c,m⟩ → HandlerStep charDevice c s.shared (s.conn c) m x sh →
      P (.handler c) sh x)
    (other : ∀ c i x sh a, move charDevice i s.shared (s.locals i) a = .ok (x,sh) → .handler c ≠ i →
      P (.handler c) sh (s.conn c))
    (h : step (move charDevice) s l = .ok s') : Everywhere P s' := by
  obtain ⟨i,a⟩ := l
  obtain ⟨x,sh,hmove,rfl⟩ := step_ok_iff.mp h
  intro j
  cases j with
  | timer t => exact htimer t _ _
  | handler c =>
    by_cases hi : .handler c = i
    · subst hi
      simpa using own c a x sh rfl (handlerStep_of_move hmove)
    · simpa [Sys.conn,Function.update_of_ne hi] using other c i x sh a hmove hi

theorem HandlerStep.recorded {self : ℕ} {sh sh' : Shared} {x x' : Conn} {m : Move}
    (h : HandlerStep charDevice self sh x m x' sh') :
    sh'.log = sh.log ∨ ∃ e, sh'.log = sh.log ++ [e] ∧ e.thread = .handler self := by
  cases h <;> simp [Event.thread]

theorem move_log {i : Thread} {sh sh' : Shared} {x x' : Local i} {a : Act i}
    (h : move charDevice i sh x a = .ok (x',sh')) :
    sh'.log = sh.log ∨ ∃ e, sh'.log = sh.log ++ [e] ∧ e.thread = i := by
  cases i with
  | handler c => exact (handlerStep_of_move h).recorded
  | timer t => cases (timerStep_of_move h).2 <;> simp [Event.thread]

theorem step_log {s s' : Sys} {l : Label} (h : step (move charDevice) s l = .ok s') :
    s.shared.log <+: s'.shared.log := by
  obtain ⟨i,a⟩ := l
  obtain ⟨x,sh,hmove,rfl⟩ := step_ok_iff.mp h
  rcases move_log hmove with hlog | ⟨e,hlog,-⟩
  · simp [hlog]
  · simp [hlog]

theorem run_log {s s' : Sys} {ls : List Label} (h : run (move charDevice) s ls = .ok s') :
    s.shared.log <+: s'.shared.log :=
  (Visits.of_run h).always (I := fun t => s.shared.log <+: t.shared.log) List.prefix_rfl
    (fun _ _ _ ht hstep => ht.trans (step_log hstep))

end Aesd.Server
