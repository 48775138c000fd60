import Aesd.Foundation.Interleaving
import Aesd.Foundation.SinglyLinked

/-! # The list of connections

The main thread, which accepts connections and cleans up after them, the handler of
SIGINT and SIGTERM, which runs on top of it and cleans up too, and the client threads.
Every malloc returns an address of its own: connection k has the clientconn_info and the
aesdsocketclientconn at k and the thread k. The statements are those of accept_conn,
cleanup_term_conn and signal_handler that read or write the list, the records or the
status of a thread. SLIST_INSERT_HEAD is one of them, and the shutdown loop that stands
in front of the list in signal_handler is none.
-/
namespace Aesd.Connections
open Interleaving SinglyLinked

/-- A block of malloc. -/
inductive Cell (α : Type) where
  | unused
  | live (a : α)
  | freed

structure ConnInfo where
  next : Option ℕ
  threadId : ℕ
  ref : ℕ

inductive ThreadStatus where
  | absent
  | running
  | terminated
  | joined
  deriving DecidableEq

/-- What must not happen. badAccess is an access to a block that is not allocated. -/
inductive Violation where
  | joinedTwice
  | freedTwice
  | badAccess
  | notInList
  deriving DecidableEq

inductive Halt where
  | blocked
  | violation (v : Violation)
  deriving DecidableEq

structure Tracking where
  head : Option ℕ
  infos : ℕ → Cell ConnInfo
  records : ℕ → Cell Unit
  threads : ℕ → ThreadStatus
  /-- connections so far -/
  count : ℕ
  stopApp : Bool

def Tracking.init : Tracking := ⟨none,fun _ => .unused,fun _ => .unused,fun _ => .absent,0,false⟩

def access {α : Type} : Cell α → Except Halt α
  | .live a => .ok a
  | _ => .error (.violation .badAccess)

def free {α : Type} : Cell α → Except Halt (Cell α)
  | .live _ => .ok .freed
  | .freed => .error (.violation .freedTwice)
  | .unused => .error (.violation .badAccess)

/-- The next pointers that can be read. -/
def Tracking.links (sh : Tracking) (k : ℕ) : Option (Option ℕ) :=
  match sh.infos k with
  | .live i => some i.next
  | _ => none

/-- A walk that leaves the list: over its end, into a block that is not allocated, or
around a cycle. -/
def stray : Except Stray ℕ → Except Halt ℕ
  | .ok k => .ok k
  | .error .dead => .error (.violation .badAccess)
  | .error _ => .error (.violation .notInList)

/-- SLIST_INSERT_HEAD of a new element. -/
def slistInsertHead (sh : Tracking) (k : ℕ) : Tracking :=
  { sh with infos := Function.update sh.infos k (.live ⟨sh.head,k,k⟩), head := some k }

def slistRemove (sh : Tracking) (k : ℕ) : Except Halt Tracking :=
  if sh.head = some k then do
    let i ← access (sh.infos k)
    return { sh with head := i.next }
  else do
    let c ← stray (findPrev sh.links k (sh.count + 1) sh.head)
    let i ← access (sh.infos k)
    let ci ← access (sh.infos c)
    return { sh with infos := Function.update sh.infos c (.live { ci with next := i.next }) }

/-- cleanup_term_conn at its next statement, with its locals item and tmp_item. -/
inductive Cleanup where
  | first
  | guard (item : Option ℕ)
  | join (item : ℕ) (tmp : Option ℕ)
  | remove (item : ℕ) (tmp : Option ℕ)
  | freeRef (item : ℕ) (tmp : Option ℕ)
  | freeItem (item : ℕ) (tmp : Option ℕ)
  | advance (tmp : Option ℕ)

/-- One statement of cleanup_term_conn; none when it returns. -/
def cleanupTermConn (awaitTermination : Bool) (sh : Tracking) : Cleanup → Except Halt (Option Cleanup × Tracking)
  | .first => .ok (some (.guard sh.head),sh)
  | .guard none => .ok (none,sh)
  | .guard (some k) => do
    let i ← access (sh.infos k)
    return (some (.join k i.next),sh)
  | .join k tmp => do
    let i ← access (sh.infos k)
    match sh.threads i.threadId with
    | .terminated =>
      return (some (.remove k tmp),{ sh with threads := Function.update sh.threads i.threadId .joined })
    | .running =>
      -- pthread_join waits, pthread_tryjoin_np returns EBUSY
      if awaitTermination then .error .blocked else return (some (.advance tmp),sh)
    | .joined => .error (.violation .joinedTwice)
    | .absent => .error (.violation .badAccess)
  | .remove k tmp => do
    let sh ← slistRemove sh k
    return (some (.freeRef k tmp),sh)
  | .freeRef k tmp => do
    let i ← access (sh.infos k)
    let cell ← free (sh.records i.ref)
    return (some (.freeItem k tmp),{ sh with records := Function.update sh.records i.ref cell })
  | .freeItem k tmp => do
    let cell ← free (sh.infos k)
    return (some (.advance tmp),{ sh with infos := Function.update sh.infos k cell })
  | .advance tmp => .ok (some (.guard tmp),sh)

/-- The loop of main, accept_conn and the cleanup_term_conn that it calls. -/
inductive MainPc where
  | check
  | accept
  | create (k : ℕ)
  | insert (k : ℕ)
  | discard (k : ℕ)
  | cleanup (f : Cleanup)
  | exited

/-- One statement of the main thread. ok is the outcome of accept and pthread_create. -/
def mainStep (ok : Bool) (sh : Tracking) : MainPc → Except Halt (MainPc × Tracking)
  | .check => .ok (if sh.stopApp then .exited else .accept,sh)
  | .accept =>
    if ok then
      let k := sh.count
      .ok (.create k,{ sh with records := Function.update sh.records k (.live ()), count := k + 1 })
    else .ok (.check,sh)
  | .create k =>
    if ok then .ok (.insert k,{ sh with threads := Function.update sh.threads k .running })
    else .ok (.discard k,sh)
  | .insert k => .ok (.cleanup .first,slistInsertHead sh k)
  | .discard k => do
    let cell ← free (sh.records k)
    return (.check,{ sh with records := Function.update sh.records k cell })
  | .cleanup f => do
    let (f',sh) ← cleanupTermConn false sh f
    match f' with
    | some f => return (.cleanup f,sh)
    | none => return (.check,sh)
  | .exited => .error .blocked

/-- signal_handler: the loop that cancels, then cleanup_term_conn(1). -/
inductive HandlerPc where
  | cancel (conn : Option ℕ)
  | cleanup (f : Cleanup)

/-- One statement of signal_handler; none when it returns. A cancellation request shows
only in that the thread terminates. -/
def handlerStep (sh : Tracking) : HandlerPc → Except Halt (Option HandlerPc × Tracking)
  | .cancel none => .ok (some (.cleanup .first),sh)
  | .cancel (some k) => do
    let i ← access (sh.infos k)
    return (some (.cancel i.next),sh)
  | .cleanup f => do
    let (f',sh) ← cleanupTermConn true sh f
    return (f'.map .cleanup,sh)

/-- The main thread and the handler that has interrupted it. -/
structure MainThread where
  pc : MainPc
  handler : Option HandlerPc

inductive MainAct where
  | step (ok : Bool)
  | signal

def mainMove (sh : Tracking) (m : MainThread) : MainAct → Except Halt (MainThread × Tracking)
  | .step ok => match m.handler with
    | none => do
      let (pc,sh) ← mainStep ok sh m.pc
      return (⟨pc,none⟩,sh)
    | some h => do
      let (h,sh) ← handlerStep sh h
      return (⟨m.pc,h⟩,sh)
  | .signal => match m.handler,m.pc with
    | none,.exited => .error .blocked
    | none,_ => .ok (⟨m.pc,some (.cancel sh.head)⟩,{ sh with stopApp := true })
    | some _,_ => .error .blocked

/-- A client thread uses its aesdsocketclientconn until it terminates. -/
inductive ClientAct where
  | use
  | terminate

def clientMove (k : ℕ) (sh : Tracking) (act : ClientAct) : Except Halt Tracking :=
  if sh.threads k = .running then
    match act with
    | .use => do
      access (sh.records k)
      return sh
    | .terminate => .ok { sh with threads := Function.update sh.threads k .terminated }
  else .error .blocked

inductive Actor where
  | main
  | client (k : ℕ)
  deriving DecidableEq

abbrev ActorState : Actor → Type
  | .main => MainThread
  | .client _ => Unit

abbrev ActorAct : Actor → Type
  | .main => MainAct
  | .client _ => ClientAct

def move : (i : Actor) → Tracking → ActorState i → ActorAct i → Except Halt (ActorState i × Tracking)
  | .main, sh, m, act => mainMove sh m act
  | .client k, sh, (), act => do
    let sh ← clientMove k sh act
    return ((),sh)

abbrev Sys := Config Tracking ActorState

def initial : Sys where
  shared := Tracking.init
  locals
    | .main => ⟨.check,none⟩
    | .client _ => ()

end Aesd.Connections
