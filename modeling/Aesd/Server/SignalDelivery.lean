import Aesd.Server.Shutdown
import Aesd.Server.ShutdownCleanup

/-! # Signals at every store and in every loop

The main thread with two details that the list alone does not need: SLIST_INSERT_HEAD
is two stores, with a point between them, and each invocation of signal_handler comes
through its shutdown loop before it comes to the connections. sa_mask is empty, so that
the handler of one signal may interrupt that of the other.

As long as there is one invocation, such a run is a run over single statements.
-/
namespace Aesd.SignalDelivery
open Interleaving SinglyLinked
open Shutdown (Signum Listener Needs ifBlock ifBlock_serverFd)
open Connections (Tracking Halt Actor ClientAct clientMove Safe Accounted)

structure Process where
  tracking : Tracking
  listener : Listener

/-- The main thread at its next statement. Between the stores of SLIST_INSERT_HEAD the
new element is not reachable; next is what the first of them has written to it. -/
inductive MainPc where
  | single (pc : Connections.MainPc)
  | linked (k : ℕ) (next : Option ℕ)

/-- One statement of the main thread. ok is the outcome of accept and pthread_create. -/
def mainStep (ok : Bool) (sh : Tracking) : MainPc → Except Halt (MainPc × Tracking)
  | .single (.insert k) => .ok (.linked k sh.head,sh)
  | .linked k next =>
    .ok (.single (.cleanup .first),
      { sh with infos := Function.update sh.infos k (.live ⟨next,k,k⟩), head := some k })
  | .single pc => do
    let (pc,sh) ← Connections.mainStep ok sh pc
    return (.single pc,sh)

/-- An invocation of signal_handler in its if block, or behind it in the loop that
cancels or in cleanup_term_conn(1). -/
inductive InvocationPc where
  | ifBlock (pc : Shutdown.HandlerPc)
  | loops (h : Connections.HandlerPc)

structure Invocation where
  signum : Signum
  pc : InvocationPc

/-- One statement of signal_handler; none when it returns. -/
def handlerStep (sh : Process) : InvocationPc → Except Halt (Option InvocationPc × Process)
  | .ifBlock .rest => .ok (some (.loops (.cancel sh.tracking.head)),sh)
  | .ifBlock pc =>
    .ok (some (.ifBlock (ifBlock sh.listener pc).1),{ sh with listener := (ifBlock sh.listener pc).2 })
  | .loops h => do
    let (h,tracking) ← Connections.handlerStep sh.tracking h
    return (h.map .loops,{ sh with tracking := tracking })

/-- The main thread and the invocations that stand on it, the running one first. -/
structure MainThread where
  pc : MainPc
  stack : List Invocation

inductive MainAct where
  | step (ok : Bool)
  | signal (signum : Signum)

/-- A signal is held back as long as its own handler runs. -/
def mainMove (sh : Process) (m : MainThread) : MainAct → Except Halt (MainThread × Process)
  | .step ok => match m.stack with
    | [] => do
      let (pc,tracking) ← mainStep ok sh.tracking m.pc
      return (⟨pc,[]⟩,{ sh with tracking := tracking })
    | f :: below => do
      let (pc,sh) ← handlerStep sh f.pc
      match pc with
      | some pc => return (⟨m.pc,⟨f.signum,pc⟩ :: below⟩,sh)
      | none => return (⟨m.pc,below⟩,sh)
  | .signal signum => match m.pc with
    | .single .exited => .error .blocked
    | _ =>
      if signum ∈ m.stack.map Invocation.signum then .error .blocked
      else .ok (⟨m.pc,⟨signum,.ifBlock .test⟩ :: m.stack⟩,
        { sh with tracking := { sh.tracking with stopApp := true } })

abbrev ActorState : Actor → Type
  | .main => MainThread
  | .client _ => Unit

abbrev ActorAct : Actor → Type
  | .main => MainAct
  | .client _ => ClientAct

def move : (i : Actor) → Process → ActorState i → ActorAct i → Except Halt (ActorState i × Process)
  | .main, sh, m, act => mainMove sh m act
  | .client k, sh, (), act => do
    let tracking ← clientMove k sh.tracking act
    return ((),{ sh with tracking := tracking })

abbrev Sys := Config Process ActorState
abbrev Label := Σ i, ActorAct i

def Sys.main (s : Sys) : MainThread := s.locals .main

def signal (signum : Signum) : Label := ⟨.main,.signal signum⟩
def statement (ok : Bool) : Label := ⟨.main,.step ok⟩

def isSignal : Label → Bool
  | ⟨.main,.signal _⟩ => true
  | _ => false

def deliveries (ls : List Label) : ℕ := ls.countP isSignal

def serving (fd : ℤ) : Sys where
  shared := ⟨Tracking.init,⟨fd,.listening⟩⟩
  locals
    | .main => ⟨.single .check,[]⟩
    | .client _ => ()

/-- Where a signal does no harm to the list. Between the stores of SLIST_INSERT_HEAD the
new element must be the only one. -/
def MainPc.Quiet : MainPc → Prop
  | .single pc => pc.Quiet
  | .linked _ next => next = none

instance (pc : MainPc) : Decidable pc.Quiet :=
  match pc with
  | .single pc => inferInstanceAs (Decidable pc.Quiet)
  | .linked _ next => inferInstanceAs (Decidable (next = none))

/-- All signals of a run from serving come at quiet points. -/
def QuietRun (fd : ℤ) (ls : List Label) : Prop :=
  ∀ t signum, Takes move (serving fd) ls t (signal signum) → (Sys.main t).pc.Quiet

theorem mainStep_cases {ok : Bool} {sh sh' : Tracking} {pc pc' : MainPc}
    (h : mainStep ok sh pc = .ok (pc',sh')) :
    (∃ k, pc = .single (.insert k) ∧ pc' = .linked k sh.head ∧ sh' = sh) ∨
    (∃ k next, pc = .linked k next ∧ pc' = .single (.cleanup .first) ∧
      sh' = { sh with infos := Function.update sh.infos k (.live ⟨next,k,k⟩), head := some k }) ∨
    ∃ c c', pc = .single c ∧ pc' = .single c' ∧ Connections.mainStep ok sh c = .ok (c',sh') := by
  cases pc with
  | linked k next =>
    cases h
    exact .inr (.inl ⟨k,next,rfl,rfl,rfl⟩)
  | single c =>
    cases c with
    | insert k =>
      cases h
      exact .inl ⟨k,rfl,rfl,rfl⟩
    | _ =>
      simp only [mainStep] at h
      obtain ⟨r,hrun,h⟩ := bind_eq_ok.mp h
      cases h
      exact .inr (.inr ⟨_,_,rfl,rfl,hrun⟩)

/-! ## Every invocation needs a shutdown of its own -/

/-- The part of an invocation that the socket is about. -/
def InvocationPc.front : InvocationPc → Shutdown.HandlerPc
  | .ifBlock pc => pc
  | .loops _ => .rest

def Sys.Needs (s : Sys) (n : ℕ) : Prop :=
  Shutdown.Needs s.shared.listener (s.main.stack.map (fun f => f.pc.front)) n

theorem handler_needs {sh sh' : Process} {f : InvocationPc} {f' : Option InvocationPc}
    {below : List Shutdown.HandlerPc} {n : ℕ} (h : Needs sh.listener (f.front :: below) n)
    (hstep : handlerStep sh f = .ok (f',sh')) :
    sh'.listener.serverFd = sh.listener.serverFd ∧
      Needs sh'.listener ((f'.map InvocationPc.front).toList ++ below) n := by
  have hblock := Needs.ifBlock h
  have hfd := ifBlock_serverFd sh.listener f.front
  cases f with
  | ifBlock pc =>
    cases pc with
    | rest =>
      cases hstep
      exact ⟨rfl,h⟩
    | test | shutdown | close =>
      cases hstep
      exact ⟨hfd,hblock⟩
  | loops c =>
    obtain ⟨⟨c',tracking⟩,-,hstep⟩ := bind_eq_ok.mp hstep
    cases hstep
    refine ⟨rfl,?_⟩
    cases c' with
    | none => exact Needs.return h
    | some c' => exact h

/-- A signal is one more need, and no other step changes how many there are. -/
theorem step_needs {s t : Sys} {l : Label} {n : ℕ} (hfd : 0 < s.shared.listener.serverFd) (hs : s.Needs n)
    (h : step move s l = .ok t) : t.shared.listener.serverFd = s.shared.listener.serverFd ∧
      t.Needs (n + if isSignal l then 1 else 0) := by
  obtain ⟨i,act⟩ := l
  obtain ⟨x,sh,hmove,rfl⟩ := step_ok_iff.mp h
  cases i with
  | client k =>
    obtain ⟨tracking,-,hmove⟩ := bind_eq_ok.mp hmove
    cases hmove
    exact ⟨rfl,by simpa [Sys.Needs,Sys.main,isSignal] using hs⟩
  | main =>
    cases act with
    | signal signum =>
      simp only [move,mainMove] at hmove
      split at hmove
      · cases hmove
      · split at hmove
        · cases hmove
        · cases hmove
          have hafter := Needs.signal hs
          rw [if_pos hfd] at hafter
          exact ⟨rfl,by simpa [Sys.Needs,Sys.main,isSignal,InvocationPc.front] using hafter⟩
    | step ok =>
      change mainMove s.shared s.main (.step ok) = .ok (x,sh) at hmove
      simp only [mainMove] at hmove
      split at hmove
      case h_1 hnil =>
        obtain ⟨⟨pc,tracking⟩,-,hmove⟩ := bind_eq_ok.mp hmove
        cases hmove
        rw [Sys.Needs,hnil] at hs
        exact ⟨rfl,by simpa [Sys.Needs,Sys.main,isSignal] using hs⟩
      case h_2 f below hcons =>
        have hs' : Needs s.shared.listener (f.pc.front :: below.map (fun f => f.pc.front)) n := by
          simpa [Sys.Needs,hcons] using hs
        obtain ⟨⟨f',sh'⟩,hrun,hmove⟩ := bind_eq_ok.mp hmove
        obtain ⟨hsame,hafter⟩ := handler_needs hs' hrun
        cases f' with
        | none | some pc =>
          cases hmove
          exact ⟨hsame,by simpa [Sys.Needs,Sys.main,isSignal] using hafter⟩

theorem run_needs {s t : Sys} {ls : List Label} {n : ℕ} (hfd : 0 < s.shared.listener.serverFd) (hs : s.Needs n)
    (hrun : run move s ls = .ok t) : 0 < t.shared.listener.serverFd ∧ t.Needs (n + deliveries ls) := by
  induction ls generalizing s n with
  | nil =>
    obtain rfl := run_nil.mp hrun
    exact ⟨hfd,hs⟩
  | cons l ls ih =>
    obtain ⟨u,hu,hrest⟩ := run_cons.mp hrun
    obtain ⟨hsame,hneeds⟩ := step_needs hfd hs hu
    obtain ⟨hpos,hafter⟩ := ih (hsame ▸ hfd) hneeds hrest
    refine ⟨hpos,?_⟩
    rw [deliveries,List.countP_cons,← Nat.add_assoc,Nat.add_right_comm]
    exact hafter

theorem serving_needs {fd : ℤ} (hfd : 0 < fd) {ls : List Label} {s : Sys}
    (hrun : run move (serving fd) ls = .ok s) : 0 < s.shared.listener.serverFd ∧ s.Needs (deliveries ls) := by
  simpa using run_needs (s := serving fd) hfd (Needs.start fd) hrun

theorem Sys.Needs.of_returned {s : Sys} {n : ℕ} (h : s.Needs n) (hnil : s.main.stack = []) : n ≤ 1 := by
  apply Shutdown.Needs.le_one h
  simp [hnil]

end Aesd.SignalDelivery
