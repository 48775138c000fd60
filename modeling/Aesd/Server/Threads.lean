import Aesd.Foundation.Interleaving
import Aesd.Server.DataFile

/-! # The threads of the server

aesdsocket.c as threads over shared state: one handler for each accepted connection
and, without the char device, one thread for each expiry of the timer. A move is one
system call with its outcome, together with the computation up to the next call. A
pending syslog call is a counter of its own, because syslog has no effect here except
that a cancellation request may be acted on in it. The descriptor table gives open and
accept an unused number; the log records what the calls of all threads did.
-/
namespace Aesd.Server
open CharDevice Kernel CString Interleaving

/-- BUFFER_SIZE, also of recv_buf. -/
def bufferSize : ℕ := 128

inductive Thread where
  | handler (c : ℕ)
  | timer (t : ℕ)
  deriving DecidableEq

inductive Event where
  | received (c : ℕ) (bytes : List UInt8)
  | opened (thread : Thread) (fd : ℤ)
  | closed (thread : Thread) (fd : ℤ)
  | sought (thread : Thread)
  | appended (thread : Thread) (payload accepted : List UInt8)
  | sent (c : ℕ) (bytes : List UInt8)
  deriving DecidableEq

def Event.thread : Event → Thread
  | .received c _ | .sent c _ => .handler c
  | .opened i _ | .closed i _ | .sought i | .appended i _ _ => i

/-- What all threads see, with the history of their calls. -/
structure Shared where
  mutex : Option Thread
  data : DataFile
  fds : ℤ → Option Thread
  log : List Event

def Shared.record (sh : Shared) (e : Event) : Shared := { sh with log := sh.log ++ [e] }

def Shared.claim (sh : Shared) (fd : ℤ) (thread : Thread) : Shared :=
  { sh with fds := Function.update sh.fds fd (some thread) }

def Shared.close (sh : Shared) (thread : Thread) (fd : ℤ) : Shared :=
  { sh with fds := Function.update sh.fds fd none, log := sh.log ++ [.closed thread fd] }

/-- pthread_mutex_unlock of an error-checking mutex: without effect for a thread that
does not own it. -/
def Shared.unlock (sh : Shared) (thread : Thread) : Shared :=
  { sh with mutex := if sh.mutex = some thread then none else sh.mutex }

@[simp] theorem Shared.record_mutex (sh : Shared) (e : Event) : (sh.record e).mutex = sh.mutex := rfl
@[simp] theorem Shared.record_data (sh : Shared) (e : Event) : (sh.record e).data = sh.data := rfl
@[simp] theorem Shared.record_fds (sh : Shared) (e : Event) : (sh.record e).fds = sh.fds := rfl
@[simp] theorem Shared.record_log (sh : Shared) (e : Event) : (sh.record e).log = sh.log ++ [e] := rfl

@[simp] theorem Shared.claim_mutex (sh : Shared) (fd : ℤ) (i : Thread) :
    (sh.claim fd i).mutex = sh.mutex := rfl
@[simp] theorem Shared.claim_data (sh : Shared) (fd : ℤ) (i : Thread) : (sh.claim fd i).data = sh.data := rfl
@[simp] theorem Shared.claim_fds (sh : Shared) (fd : ℤ) (i : Thread) :
    (sh.claim fd i).fds = Function.update sh.fds fd (some i) := rfl
@[simp] theorem Shared.claim_log (sh : Shared) (fd : ℤ) (i : Thread) : (sh.claim fd i).log = sh.log := rfl

@[simp] theorem Shared.close_mutex (sh : Shared) (i : Thread) (fd : ℤ) :
    (sh.close i fd).mutex = sh.mutex := rfl
@[simp] theorem Shared.close_data (sh : Shared) (i : Thread) (fd : ℤ) : (sh.close i fd).data = sh.data := rfl
@[simp] theorem Shared.close_fds (sh : Shared) (i : Thread) (fd : ℤ) :
    (sh.close i fd).fds = Function.update sh.fds fd none := rfl
@[simp] theorem Shared.close_log (sh : Shared) (i : Thread) (fd : ℤ) :
    (sh.close i fd).log = sh.log ++ [.closed i fd] := rfl

@[simp] theorem Shared.unlock_mutex (sh : Shared) (i : Thread) :
    (sh.unlock i).mutex = if sh.mutex = some i then none else sh.mutex := rfl
@[simp] theorem Shared.unlock_data (sh : Shared) (i : Thread) : (sh.unlock i).data = sh.data := rfl
@[simp] theorem Shared.unlock_fds (sh : Shared) (i : Thread) : (sh.unlock i).fds = sh.fds := rfl
@[simp] theorem Shared.unlock_log (sh : Shared) (i : Thread) : (sh.unlock i).log = sh.log := rfl

/-- The call a handler makes next. The last three are those of connection_cleanup. -/
inductive Pc where
  | idle
  | refused
  | start
  | recv
  | openFile
  | seek
  | stage
  | lock
  | append
  | rewind
  | read
  | send
  | unlock
  | rest
  | closeClient
  | closeData
  | release
  | done
  deriving DecidableEq

/-- A handler thread: where it is, struct aesdsocketclientconn and the locals of
connnection_handler and send_response. -/
structure Conn where
  pc : Pc
  /-- syslog calls to make before the call at pc -/
  logs : ℕ
  clientFd : ℤ
  /-- the local data_fd -/
  dataFd : ℤ
  /-- args->data_fd -/
  argsDataFd : ℤ
  fPos : ℕ
  buffer : List UInt8
  maxbuflen : UInt64
  buflen : UInt64
  recvBuf : List UInt8
  readbuf : List UInt8
  rc : ℤ
  cancelRequested : Bool
  /-- a cancellation request has been acted on -/
  cancelled : Bool

def Conn.fresh : Conn := ⟨.idle,0,0,0,0,0,[],0,0,[],[],0,false,false⟩

/-- A call of connnection_handler, send_response or connection_cleanup with its outcome. -/
inductive Call where
  | start
  /-- none when recv returns zero or an error -/
  | recv (bytes : Option (List UInt8))
  | openFile (fd : ℤ)
  | seek (ok : Bool)
  | stage (env : ReallocEnv)
  | lock (rc : ℕ)
  | append (env : AppendEnv)
  | rewind (ok : Bool)
  | read (env : ReadOutcome)
  | send (rc : ℤ)
  | unlock
  | rest (env : ReallocEnv)
  | closeClient
  | closeData (ok : Bool)
  | release

/-- Where a handler makes the call. -/
def Call.pc : Call → Pc
  | .start => .start
  | .recv _ => .recv
  | .openFile _ => .openFile
  | .seek _ => .seek
  | .stage _ => .stage
  | .lock _ => .lock
  | .append _ => .append
  | .rewind _ => .rewind
  | .read _ => .read
  | .send _ => .send
  | .unlock => .unlock
  | .rest _ => .rest
  | .closeClient => .closeClient
  | .closeData _ => .closeData
  | .release => .release

inductive Stop where
  | blocked
  | fault (f : Fault)

def orFault {α : Type} : Except Fault α → Except Stop α := Except.mapError Stop.fault

/-- k, the index of the first newline received, or n. -/
def Conn.newlineAt (c : Conn) : ℕ := c.recvBuf.idxOf newline

def Conn.hasNl (c : Conn) : Bool := decide (c.newlineAt < c.recvBuf.length)

/-- How many of the received bytes the first append_string takes. -/
def Conn.currlen (c : Conn) : ℕ :=
  if c.newlineAt + 1 < c.recvBuf.length then c.newlineAt + 1 else c.recvBuf.length

def EPERM : ℤ := 1

/-- The handler self in its state c makes a call. -/
def perform (charDevice : Bool) (self : ℕ) (sh : Shared) (c : Conn) : Call → Except Stop (Conn × Shared)
  | .start => .ok ({ c with pc := .recv, buflen := 0, buffer := c.buffer.set 0 0 },sh)
  | .recv none => .ok ({ c with pc := .closeClient },sh)
  | .recv (some bytes) =>
    if bytes = [] ∨ bufferSize < bytes.length then .error .blocked
    else .ok ({ c with pc := .openFile, recvBuf := bytes },sh.record (.received self bytes))
  | .openFile fd =>
    let c := { c with pc := .seek, dataFd := fd, fPos := 0 }
    let sh := sh.record (.opened (.handler self) fd)
    -- open_datafile still logs the failure before it returns
    if fd < 0 then .ok ({ c with logs := 1 },sh)
    else if (sh.fds fd).isSome then .error .blocked
    else .ok ({ c with argsDataFd := fd },sh.claim fd (.handler self))
  | .seek ok =>
    let (rc,fPos) := adjustDatafilePos charDevice ok sh.data c.dataFd c.fPos 0 .fromEnd
    if -1 < rc then .ok ({ c with pc := .stage, fPos := fPos },sh.record (.sought (.handler self)))
    else .ok ({ c with pc := .closeClient, fPos := fPos, logs := if rc = -1 then 2 else 1 },sh)
  | .stage env => do
    let (buffer,maxbuflen) ← orFault (appendString env c.buffer c.maxbuflen c.buflen c.recvBuf c.currlen)
    let c' := { c with buffer := buffer, maxbuflen := maxbuflen, buflen := c.buflen + UInt64.ofNat c.currlen }
    return ({ c' with pc := if c.hasNl then .lock else .recv },sh)
  | .lock rc =>
    if rc = 0 then
      if sh.mutex = none then .ok ({ c with pc := .append, rc := 0 },{ sh with mutex := some (.handler self) })
      else .error .blocked
    else .ok ({ c with pc := .closeClient, logs := 1, rc := rc },sh)
  | .append env => do
    let payload ← orFault (inBounds (cstr c.buffer))
    let r ← orFault (appendDatafile charDevice env sh.data c.dataFd c.fPos c.buffer (intOf payload.length))
    let c' := { c with pc := .rewind, logs := if r.failed then 1 else 0, fPos := r.fPos }
    return ({ c' with buffer := c.buffer.set 0 0, buflen := 0 },
      { sh with data := r.data }.record (.appended (.handler self) payload r.accepted))
  | .rewind ok =>
    let (rc,fPos) := adjustDatafilePos charDevice ok sh.data c.dataFd c.fPos 0 .set
    .ok ({ c with pc := .read, fPos := fPos, logs := if rc = -1 then 1 else 0 },sh)
  | .read env => do
    let (m,data,fPos) ← orFault (readDatafile charDevice env sh.data c.dataFd c.fPos)
    if 0 < m then return ({ c with pc := .send, readbuf := data, fPos := fPos },sh)
    else return ({ c with pc := .unlock, fPos := fPos, rc := 0 },sh)
  | .send rc =>
    if c.readbuf.length < rc then .error .blocked
    -- leaves the loop with the mutex held
    else if rc < 0 then .ok ({ c with pc := .closeClient, logs := 1, rc := rc },sh)
    else .ok ({ c with pc := .read },sh.record (.sent self (c.readbuf.take rc.toNat)))
  | .unlock =>
    if sh.mutex = some (.handler self) then .ok ({ c with pc := .rest, rc := 0 },sh.unlock (.handler self))
    else .ok ({ c with pc := .closeClient, logs := 1, rc := EPERM },sh)
  | .rest env => do
    let buflen := c.recvBuf.length - c.newlineAt - 1
    let (buffer,maxbuflen) ← orFault (appendString env c.buffer c.maxbuflen (UInt64.ofNat buflen)
      (c.recvBuf.drop (c.newlineAt + 1)) buflen)
    return ({ c with pc := .recv, buffer := buffer, maxbuflen := maxbuflen, buflen := UInt64.ofNat buflen },sh)
  | .closeClient =>
    .ok ({ c with pc := .closeData, logs := 1 },sh.close (.handler self) c.clientFd)
  | .closeData ok =>
    if 0 < c.argsDataFd then
      .ok ({ c with pc := .release, logs := if ok then 0 else 1 },sh.close (.handler self) c.argsDataFd)
    else .ok ({ c with pc := .release },sh)
  | .release => .ok ({ c with pc := .done },sh.unlock (.handler self))

/-- Calls in which POSIX lets a thread act on a cancellation request; those that it
only allows to be such points (syslog, lseek, ioctl) are taken to be. -/
def Conn.atCancellationPoint (charDevice : Bool) (c : Conn) : Bool :=
  0 < c.logs ∨ c.pc ∈ [.recv,.openFile,.append,.read,.send,.closeClient] ∨
    (charDevice = false ∧ c.pc ∈ [.seek,.rewind]) ∨ (c.pc = .closeData ∧ 0 < c.argsDataFd)

/-- What comes before the write or ioctl of an append: strlen and, with the char device,
parse_seekto_cmd, whose result has no effect yet. -/
def beforeAppend (charDevice : Bool) (buffer : List UInt8) : Except Fault Unit := do
  let payload ← inBounds (cstr buffer)
  if charDevice then (parseSeektoCmd 0 0 buffer (intOf payload.length)).map (fun _ => ())
  else return ()

/-- What a thread does before it comes to its next cancellation point. -/
def Conn.beforePoint (charDevice : Bool) (c : Conn) : Except Fault Unit :=
  if c.pc = .append then beforeAppend charDevice c.buffer else return ()

/-- connection_cleanup is running. The syslog calls before its first close are still
those of the loop that is being left. -/
def Conn.inCleanup (c : Conn) : Bool :=
  (c.pc = .closeClient ∧ c.logs = 0) ∨ c.pc ∈ [.closeData,.release]

inductive Move where
  /-- accept_conn up to the result of pthread_create; junk is the new buffer. -/
  | accept (fd : ℤ) (created : Bool) (junk : ℕ → UInt8)
  | syslog
  | requestCancel
  | cancel
  | call (k : Call)

/-- A thread is cancelled at most once: the cleanup that a cancellation runs is not
interrupted. pthread_cleanup_pop(1) has already removed the routine that it runs, so
a cancellation in there ends the thread at once. -/
def handlerMove (charDevice : Bool) (self : ℕ) (sh : Shared) (c : Conn) : Move → Except Stop (Conn × Shared)
  | .accept fd created junk =>
    if c.pc = .idle ∧ 0 ≤ fd ∧ sh.fds fd = none then
      if created then
        .ok ({ Conn.fresh with
          pc := .start, logs := 1, clientFd := fd, buffer := (List.range bufferSize).map junk,
          maxbuflen := UInt64.ofNat bufferSize },sh.claim fd (.handler self))
      else .ok ({ Conn.fresh with pc := .refused, clientFd := fd },sh.claim fd (.handler self))
    else .error .blocked
  | .syslog =>
    -- behind the one of open_datafile its result is assigned
    let argsDataFd := if c.pc = .seek then c.dataFd else c.argsDataFd
    if 0 < c.logs then .ok ({ c with logs := c.logs - 1, argsDataFd := argsDataFd },sh) else .error .blocked
  | .requestCancel =>
    if c.pc ∈ [.idle,.refused] then .error .blocked else .ok ({ c with cancelRequested := true },sh)
  | .cancel =>
    if c.cancelRequested = true ∧ c.cancelled = false ∧ c.atCancellationPoint charDevice = true then
      if c.inCleanup then .ok ({ c with pc := .done, logs := 0, cancelled := true },sh)
      else do
        orFault (c.beforePoint charDevice)
        return ({ c with pc := .closeClient, logs := 0, cancelled := true },sh)
    else .error .blocked
  | .call k => if c.logs = 0 ∧ c.pc = k.pc then perform charDevice self sh c k else .error .blocked

inductive TimerPc where
  | lock
  | gettime
  | openFile
  | seek
  | append
  | close
  | unlock
  | done
  deriving DecidableEq

structure Timer where
  pc : TimerPc
  fd : ℤ
  fPos : ℕ
  tsRow : List UInt8

/-- A call of timer_action with its outcome; its syslog calls are no steps, since these
threads are never cancelled. -/
inductive TimerCall where
  | lock (rc : ℕ)
  /-- what strftime wrote, none when clock_gettime fails -/
  | gettime (dt : Option (List UInt8))
  | openFile (fd : ℤ)
  | seek (ok : Bool)
  | append (env : AppendEnv)
  | close
  | unlock

def TimerCall.pc : TimerCall → TimerPc
  | .lock _ => .lock
  | .gettime _ => .gettime
  | .openFile _ => .openFile
  | .seek _ => .seek
  | .append _ => .append
  | .close => .close
  | .unlock => .unlock

def timestampText : List UInt8 := [116,105,109,101,115,116,97,109,112,58]

/-- sizeof(dt); the text of strftime leaves room for its NUL. -/
def dtSize : ℕ := 100

def timerCall (charDevice : Bool) (self : ℕ) (sh : Shared) (t : Timer) : TimerCall → Except Stop (Timer × Shared)
  | .lock rc =>
    if rc = 0 then
      if sh.mutex = none then .ok ({ t with pc := .gettime },{ sh with mutex := some (.timer self) })
      else .error .blocked
    else .ok ({ t with pc := .done },sh)
  | .gettime none => .ok ({ t with pc := .unlock },sh)
  | .gettime (some dt) =>
    if dtSize ≤ dt.length ∨ 0 ∈ dt then .error .blocked
    else .ok ({ t with pc := .openFile, tsRow := timestampText ++ dt ++ [newline,0] },sh)
  | .openFile fd =>
    let t := { t with pc := .seek, fd := fd, fPos := 0 }
    let sh := sh.record (.opened (.timer self) fd)
    if fd < 0 then .ok (t,sh)
    else if (sh.fds fd).isSome then .error .blocked
    else .ok (t,sh.claim fd (.timer self))
  | .seek ok =>
    let (rc,fPos) := adjustDatafilePos charDevice ok sh.data t.fd t.fPos 0 .fromEnd
    if -1 < rc then .ok ({ t with pc := .append, fPos := fPos },sh.record (.sought (.timer self)))
    else .ok ({ t with pc := .close, fPos := fPos },sh)
  | .append env => do
    let payload ← orFault (inBounds (cstr t.tsRow))
    let r ← orFault (appendDatafile charDevice env sh.data t.fd t.fPos t.tsRow (intOf payload.length))
    return ({ t with pc := .close, fPos := r.fPos },
      { sh with data := r.data }.record (.appended (.timer self) payload r.accepted))
  | .close =>
    if 0 < t.fd then .ok ({ t with pc := .unlock },sh.close (.timer self) t.fd)
    else .ok ({ t with pc := .unlock },sh)
  | .unlock => .ok ({ t with pc := .done },sh.unlock (.timer self))

/-- main creates the timer only when the data file is not the char device. -/
def timerMove (charDevice : Bool) (self : ℕ) (sh : Shared) (t : Timer) (k : TimerCall) :
    Except Stop (Timer × Shared) :=
  if charDevice = false ∧ t.pc = k.pc then timerCall charDevice self sh t k else .error .blocked

abbrev Local : Thread → Type
  | .handler _ => Conn
  | .timer _ => Timer

abbrev Act : Thread → Type
  | .handler _ => Move
  | .timer _ => TimerCall

def move (charDevice : Bool) : (i : Thread) → Shared → Local i → Act i → Except Stop (Local i × Shared)
  | .handler c => handlerMove charDevice c
  | .timer t => timerMove charDevice t

abbrev Sys := Config Shared Local
abbrev Label := Σ i, Act i

def Sys.conn (s : Sys) (c : ℕ) : Conn := s.locals (.handler c)
def Sys.timer (s : Sys) (t : ℕ) : Timer := s.locals (.timer t)

/-- The server before the first connection, with an empty data file. -/
def boot : Sys where
  shared := ⟨none,⟨[],aesdInitModule⟩,fun _ => none,[]⟩
  locals
    | .handler _ => Conn.fresh
    | .timer _ => ⟨.lock,0,0,[]⟩

/-- Outcomes in which nothing is refused. -/
def grantingRealloc : ReallocEnv := ⟨true,fun _ => 0⟩
def grantingAppend : AppendEnv := ⟨grantingEnv,true,true,0,0,some maxRwCount⟩
def grantingRead : ReadOutcome := ⟨⟨true,true⟩,some readbufSize⟩

/-- The handler c makes some calls, one after the other. -/
def calls (c : ℕ) (ks : List Call) : List Label := ks.map (fun k => ⟨.handler c,.call k⟩)

def accepted (c : ℕ) (fd : ℤ) : List Label :=
  [⟨.handler c,.accept fd true (fun _ => 0)⟩,⟨.handler c,.syslog⟩,⟨.handler c,.call .start⟩]

def chunks (c : ℕ) (log : List Event) : List (List UInt8) :=
  log.filterMap (fun | .received c' bytes => if c' = c then some bytes else none | _ => none)

@[simp] theorem chunks_append (c : ℕ) (log log' : List Event) :
    chunks c (log ++ log') = chunks c log ++ chunks c log' := by simp [chunks]
@[simp] theorem chunks_received (c : ℕ) (bytes : List UInt8) :
    chunks c [.received c bytes] = [bytes] := by simp [chunks]
theorem chunks_received_of_ne {c c' : ℕ} (h : c' ≠ c) (bytes : List UInt8) :
    chunks c [.received c' bytes] = [] := by simp [chunks,h]
@[simp] theorem chunks_opened (c : ℕ) (i : Thread) (fd : ℤ) : chunks c [.opened i fd] = [] := rfl
@[simp] theorem chunks_closed (c : ℕ) (i : Thread) (fd : ℤ) : chunks c [.closed i fd] = [] := rfl
@[simp] theorem chunks_sought (c : ℕ) (i : Thread) : chunks c [.sought i] = [] := rfl
@[simp] theorem chunks_appended (c : ℕ) (i : Thread) (payload accepted : List UInt8) :
    chunks c [.appended i payload accepted] = [] := rfl
@[simp] theorem chunks_sent (c c' : ℕ) (bytes : List UInt8) : chunks c [.sent c' bytes] = [] := rfl

def received (c : ℕ) (log : List Event) : List UInt8 := (chunks c log).flatten

theorem received_append (c : ℕ) (log log' : List Event) :
    received c (log ++ log') = received c log ++ received c log' := by simp [received]

end Aesd.Server
