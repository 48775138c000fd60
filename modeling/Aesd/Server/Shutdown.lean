import Aesd.Foundation.Interleaving
import Mathlib.Algebra.Ring.Nat
import Mathlib.Data.List.Count

/-! # The shutdown loop of the signal handler

signal_handler repeats shutdown until it succeeds. It can succeed only once: the first
success takes the socket out of its listening state, and server_fd goes on naming it
after the close. Each invocation needs a success of its own, so that the second one
never leaves its loop.
-/
namespace Aesd.Shutdown
open Interleaving

inductive Signum where
  | sigint
  | sigterm
  deriving DecidableEq

/-- The statement of signal_handler that comes next. What follows the if block is taken
to be one statement that returns. -/
inductive HandlerPc where
  | test
  | shutdown
  | close
  | rest
  deriving DecidableEq

structure Invocation where
  signum : Signum
  pc : HandlerPc
  deriving DecidableEq

inductive SocketState where
  | listening
  | shutDown
  | closed
  deriving DecidableEq

/-- server_fd, and the state of the socket that it names. -/
structure Listener where
  serverFd : ℤ
  socket : SocketState

/-- shutdown ends the listening. It fails on a socket that does not listen any more
(ENOTCONN) and on a closed descriptor (EBADF). -/
def Listener.shutdown (sh : Listener) : ℤ × Listener :=
  match sh.socket with
  | .listening => (0,{ sh with socket := .shutDown })
  | .shutDown | .closed => (-1,sh)

def Listener.close (sh : Listener) : Listener := { sh with socket := .closed }

/-- One statement of the if block: its test, shutdown with the test of the while loop
around it, and close. -/
def ifBlock (sh : Listener) : HandlerPc → HandlerPc × Listener
  | .test => (if 0 < sh.serverFd then .shutdown else .rest,sh)
  | .shutdown => (if sh.shutdown.1 = -1 then .shutdown else .close,sh.shutdown.2)
  | .close => (.rest,sh.close)
  | .rest => (.rest,sh)

inductive Halt where
  | masked
  | idle

inductive Act where
  | signal (signum : Signum)
  | step

/-- The invocations of signal_handler stand on top of each other, the running one first.
A signal is held back as long as its own handler runs, and sa_mask adds no other. -/
def move (_ : Unit) (sh : Listener) (stack : List Invocation) : Act → Except Halt (List Invocation × Listener)
  | .signal signum =>
    if signum ∈ stack.map Invocation.signum then .error .masked else .ok (⟨signum,.test⟩ :: stack,sh)
  | .step =>
    match stack with
    | [] => .error .idle
    | ⟨_,.rest⟩ :: below => .ok (below,sh)
    | ⟨signum,pc⟩ :: below => .ok (⟨signum,(ifBlock sh pc).1⟩ :: below,(ifBlock sh pc).2)

abbrev Sys := Config Listener (fun _ : Unit => List Invocation)
abbrev Label := Σ _ : Unit, Act

def Sys.stack (s : Sys) : List Invocation := s.locals ()

def signal (signum : Signum) : Label := ⟨(),.signal signum⟩
def statement : Label := ⟨(),.step⟩

def isSignal : Label → Bool
  | ⟨(),.signal _⟩ => true
  | ⟨(),.step⟩ => false

def deliveries (ls : List Label) : ℕ := ls.countP isSignal

def serving (fd : ℤ) : Sys := ⟨⟨fd,.listening⟩,fun _ => []⟩

/-- If no more signals arrive, all invocations leave their loops. -/
def LoopsEnd (s : Sys) : Prop :=
  ∃ n t, run move s (List.replicate n statement) = .ok t ∧ ∀ f ∈ Sys.stack t, f.pc ≠ .test ∧ f.pc ≠ .shutdown

/-! ## Every invocation needs a success of its own -/

/-- An invocation here has a successful shutdown still to do. -/
def HandlerPc.willShutdown (fd : ℤ) (pc : HandlerPc) : Bool := pc = .shutdown ∨ (pc = .test ∧ 0 < fd)

/-- How many successes the socket has given. -/
def Listener.given (sh : Listener) : ℕ := if sh.socket = .listening then 0 else 1

/-- The successes given and those still needed are n together. -/
structure Needs (sh : Listener) (pcs : List HandlerPc) (n : ℕ) : Prop where
  closing : .close ∈ pcs → sh.socket ≠ .listening
  total : pcs.countP (HandlerPc.willShutdown sh.serverFd) + sh.given = n

section
variable {sh : Listener} {pc : HandlerPc} {pcs : List HandlerPc} {n : ℕ}

theorem Listener.given_le (sh : Listener) : sh.given ≤ 1 := by
  unfold given
  split <;> omega

theorem Needs.start (fd : ℤ) : Needs ⟨fd,.listening⟩ [] 0 := ⟨by simp,rfl⟩

theorem Needs.signal (h : Needs sh pcs n) :
    Needs sh (.test :: pcs) (if 0 < sh.serverFd then n + 1 else n) := by
  refine ⟨by simpa using h.closing,?_⟩
  have htotal := h.total
  by_cases hfd : 0 < sh.serverFd
  · simp only [List.countP_cons,HandlerPc.willShutdown,hfd] at htotal ⊢
    simp
    omega
  · simpa [List.countP_cons,HandlerPc.willShutdown,hfd] using htotal

theorem Needs.return (h : Needs sh (.rest :: pcs) n) : Needs sh pcs n :=
  ⟨fun hmem => h.closing (by simp [hmem]),by simpa [HandlerPc.willShutdown] using h.total⟩

theorem ifBlock_serverFd (sh : Listener) (pc : HandlerPc) : (ifBlock sh pc).2.serverFd = sh.serverFd := by
  cases pc with
  | shutdown => cases hsocket : sh.socket <;> simp [ifBlock,Listener.shutdown,hsocket]
  | _ => rfl

/-- A statement of the if block satisfies a need exactly when it uses up the socket. -/
theorem Needs.ifBlock (h : Needs sh (pc :: pcs) n) :
    Needs (ifBlock sh pc).2 ((ifBlock sh pc).1 :: pcs) n := by
  have hclosing := h.closing
  have htotal := h.total
  cases pc with
  | test =>
    refine ⟨?_,?_⟩
    · by_cases hfd : 0 < sh.serverFd <;> simpa [Shutdown.ifBlock,hfd] using hclosing
    · by_cases hfd : 0 < sh.serverFd <;>
        simpa [Shutdown.ifBlock,List.countP_cons,HandlerPc.willShutdown,hfd] using htotal
  | shutdown =>
    cases hsocket : sh.socket with
    | listening =>
      refine ⟨by simp [Shutdown.ifBlock,Listener.shutdown,hsocket],?_⟩
      simp only [List.countP_cons,HandlerPc.willShutdown,Listener.given,hsocket] at htotal
      simp only [Shutdown.ifBlock,Listener.shutdown,hsocket,List.countP_cons,HandlerPc.willShutdown,
        Listener.given]
      simp at htotal ⊢
      omega
    | shutDown | closed => simpa [Shutdown.ifBlock,Listener.shutdown,hsocket] using h
  | close =>
    have hsocket := hclosing (by simp)
    refine ⟨by simp [Shutdown.ifBlock,Listener.close],?_⟩
    simpa [Shutdown.ifBlock,Listener.close,List.countP_cons,HandlerPc.willShutdown,Listener.given,hsocket]
      using htotal
  | rest => exact h

theorem Needs.listening (h : Needs sh (.shutdown :: pcs) n) (hn : n ≤ 1) : sh.socket = .listening := by
  have htotal := h.total
  by_contra hsocket
  simp [HandlerPc.willShutdown,Listener.given,hsocket] at htotal
  omega

theorem Needs.le_one (h : Needs sh pcs n) (hpast : ∀ pc ∈ pcs, pc ≠ .test ∧ pc ≠ .shutdown) : n ≤ 1 := by
  have hnone : pcs.countP (HandlerPc.willShutdown sh.serverFd) = 0 := by
    rw [List.countP_eq_zero]
    intro pc hpc
    simp [HandlerPc.willShutdown,hpast pc hpc]
  have htotal := h.total
  have hgiven := sh.given_le
  omega

end

/-! ## Runs -/

def Sys.Needs (s : Sys) (n : ℕ) : Prop := Shutdown.Needs s.shared (s.stack.map Invocation.pc) n

def HandlerPc.remaining : HandlerPc → ℕ
  | .test => 4
  | .shutdown => 3
  | .close => 2
  | .rest => 1

def remaining (stack : List Invocation) : ℕ := (stack.map (fun f => f.pc.remaining)).sum

theorem Needs.nearer {sh : Listener} {pc : HandlerPc} {pcs : List HandlerPc} {n : ℕ}
    (h : Needs sh (pc :: pcs) n) (hn : n ≤ 1) (hpc : pc ≠ .rest) :
    (Shutdown.ifBlock sh pc).1.remaining < pc.remaining := by
  cases pc with
  | test => by_cases hpos : 0 < sh.serverFd <;> simp [HandlerPc.remaining,Shutdown.ifBlock,hpos]
  | shutdown =>
    have hsocket := h.listening hn
    simp [HandlerPc.remaining,Shutdown.ifBlock,Listener.shutdown,hsocket]
  | close => simp [HandlerPc.remaining,Shutdown.ifBlock]
  | rest => exact absurd rfl hpc

/-- A statement leaves the needs as they are. If there is one in all it brings the end
nearer. -/
theorem move_statement (sh : Listener) (f : Invocation) (below : List Invocation) {n : ℕ}
    (h : Needs sh ((f :: below).map Invocation.pc) n) :
    ∃ stack sh', move () sh (f :: below) .step = .ok (stack,sh') ∧ sh'.serverFd = sh.serverFd ∧
      Needs sh' (stack.map Invocation.pc) n ∧ (n ≤ 1 → remaining stack < remaining (f :: below)) := by
  obtain ⟨signum,pc⟩ := f
  cases pc with
  | rest =>
    refine ⟨_,_,rfl,rfl,Needs.return h,fun _ => ?_⟩
    simp [remaining,HandlerPc.remaining]
  | test | shutdown | close =>
    refine ⟨_,_,rfl,ifBlock_serverFd sh _,Needs.ifBlock h,fun hn => ?_⟩
    have hless := Needs.nearer h hn (by simp)
    simpa [remaining] using hless

theorem exists_statement {s : Sys} {n : ℕ} (h : s.Needs n) (hne : s.stack ≠ []) :
    ∃ t : Sys, step move s statement = .ok t ∧ t.shared.serverFd = s.shared.serverFd ∧ t.Needs n ∧
      (n ≤ 1 → remaining t.stack < remaining s.stack) := by
  obtain ⟨f,below,hstack⟩ := List.exists_cons_of_ne_nil hne
  rw [Sys.Needs,hstack] at h
  obtain ⟨stack,sh,hmove,hfd,hneeds,hless⟩ := move_statement s.shared f below h
  rw [← hstack] at hmove hless
  exact ⟨_,step_ok_iff.mpr ⟨stack,sh,hmove,rfl⟩,hfd,by simpa [Sys.Needs,Sys.stack] using hneeds,
    by simpa [Sys.stack] using hless⟩

theorem step_statement {s t : Sys} {n : ℕ} (hs : s.Needs n) (h : step move s statement = .ok t) :
    t.shared.serverFd = s.shared.serverFd ∧ t.Needs n := by
  have hne : s.stack ≠ [] := by
    intro hnil
    obtain ⟨x,sh,hmove,-⟩ := step_ok_iff.mp h
    have hidle : move () s.shared s.stack .step = .ok (x,sh) := hmove
    rw [hnil] at hidle
    simp [move] at hidle
  obtain ⟨t',ht',hfd,hneeds,-⟩ := exists_statement hs hne
  obtain rfl := Except.ok.inj (h.symm.trans ht')
  exact ⟨hfd,hneeds⟩

theorem step_signal {s t : Sys} {n : ℕ} {signum : Signum} (hs : s.Needs n)
    (h : step move s (signal signum) = .ok t) :
    t.shared = s.shared ∧ t.Needs (if 0 < s.shared.serverFd then n + 1 else n) := by
  obtain ⟨x,sh,hmove,rfl⟩ := step_ok_iff.mp h
  simp only [move] at hmove
  split at hmove
  · simp at hmove
  obtain ⟨rfl,rfl⟩ := Prod.mk.inj (Except.ok.inj hmove)
  exact ⟨rfl,by simpa [Sys.Needs,Sys.stack] using Needs.signal hs⟩

theorem run_statements {s t : Sys} {n k : ℕ} (hs : s.Needs n)
    (h : run move s (List.replicate k statement) = .ok t) : t.Needs n := by
  induction k generalizing s with
  | zero =>
    obtain rfl := run_nil.mp h
    exact hs
  | succ k ih =>
    obtain ⟨u,hu,hrest⟩ := run_cons.mp h
    exact ih (step_statement hs hu).2 hrest

theorem exists_statements {s : Sys} {n : ℕ} (hs : s.Needs n) (hn : n ≤ 1) :
    ∃ k t, run move s (List.replicate k statement) = .ok t ∧ Sys.stack t = [] := by
  induction hm : remaining s.stack using Nat.strongRecOn generalizing s with
  | ind m ih =>
    by_cases hnil : s.stack = []
    · exact ⟨0,s,run_nil.mpr rfl,hnil⟩
    · obtain ⟨u,hu,-,hneeds,hless⟩ := exists_statement hs hnil
      obtain ⟨k,t,hrun,hend⟩ := ih _ (hm ▸ hless hn) hneeds rfl
      exact ⟨k + 1,t,run_cons.mpr ⟨u,hu,hrun⟩,hend⟩

theorem Sys.Needs.loopsEnd_iff {s : Sys} {n : ℕ} (h : s.Needs n) : LoopsEnd s ↔ n ≤ 1 := by
  constructor
  · rintro ⟨k,t,hrun,hpast⟩
    refine Shutdown.Needs.le_one (run_statements h hrun) ?_
    simpa using hpast
  · intro hn
    obtain ⟨k,t,hrun,hnil⟩ := exists_statements h hn
    exact ⟨k,t,hrun,by simp [hnil]⟩

theorem run_needs {fd : ℤ} {ls : List Label} {s : Sys} (hrun : run move (serving fd) ls = .ok s) :
    s.shared.serverFd = fd ∧ s.Needs (if 0 < fd then deliveries ls else 0) := by
  induction ls using List.reverseRecOn generalizing s with
  | nil =>
    obtain rfl := run_nil.mp hrun
    exact ⟨rfl,by simpa [deliveries,Sys.Needs,Sys.stack,serving] using Needs.start fd⟩
  | append_singleton ls l ih =>
    obtain ⟨t,hrun,hlast⟩ := run_snoc.mp hrun
    obtain ⟨hfd,hneeds⟩ := ih hrun
    obtain ⟨⟨⟩,a⟩ := l
    cases a with
    | step =>
      obtain ⟨hsame,hafter⟩ := step_statement hneeds hlast
      exact ⟨hsame.trans hfd,by simpa [deliveries,isSignal] using hafter⟩
    | signal signum =>
      obtain ⟨hsame,hafter⟩ := step_signal hneeds hlast
      rw [hfd] at hafter
      refine ⟨hsame ▸ hfd,?_⟩
      by_cases hpos : 0 < fd <;> simpa [deliveries,isSignal,hpos] using hafter

/-- After any signals, at any points of the invocations before, all loops end exactly if
there is no socket to shut down or one signal was delivered at most. -/
theorem loops_end_iff (fd : ℤ) {ls : List Label} {s : Sys} (hrun : run move (serving fd) ls = .ok s) :
    LoopsEnd s ↔ fd ≤ 0 ∨ deliveries ls ≤ 1 := by
  rw [(run_needs hrun).2.loopsEnd_iff]
  by_cases hpos : 0 < fd
  · simp [hpos,Int.not_le.mpr hpos]
  · simp [hpos,Int.not_lt.mp hpos]

def oneSignal : List Label := [signal .sigint,statement]

theorem oneSignal_ends : ∃ s : Sys, run move (serving 3) oneSignal = .ok s ∧
    s.stack = [⟨.sigint,.shutdown⟩] ∧ LoopsEnd s := by
  obtain ⟨s,hrun,hend⟩ := exists_of_returns
    (show returns (fun s : Sys => decide (s.stack = [⟨.sigint,.shutdown⟩]))
      (run move (serving 3) oneSignal) = true by decide)
  exact ⟨s,hrun,of_decide_eq_true hend,(loops_end_iff 3 hrun).mpr (by decide)⟩

/-- A signal with its whole invocation, and then another signal. -/
def twoSignals : List Label :=
  [signal .sigint,statement,statement,statement,statement,signal .sigterm]

/-- The second invocation never leaves its loop. -/
theorem twoSignals_loop : ∃ s : Sys, run move (serving 3) twoSignals = .ok s ∧
    s.stack = [⟨.sigterm,.test⟩] ∧ ¬ LoopsEnd s := by
  obtain ⟨s,hrun,hend⟩ := exists_of_returns
    (show returns (fun s : Sys => decide (s.stack = [⟨.sigterm,.test⟩]))
      (run move (serving 3) twoSignals) = true by decide)
  refine ⟨s,hrun,of_decide_eq_true hend,?_⟩
  rw [(run_needs hrun).2.loopsEnd_iff]
  decide

end Aesd.Shutdown
