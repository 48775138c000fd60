import Aesd.Foundation.Interleaving
import Mathlib.Data.Int.Notation
import Mathlib.Data.List.Perm.Basic
import Mathlib.Logic.Function.Basic

/-! # Commands run by fork, execv and wait

do_system, do_exec and do_exec_redirect, called one after the other by a process that
prints in between. The memory of a child is its own, so that what it does before it
becomes the command is run at the fork; wait then returns any child that has not been
waited for. The case for a failed fork goes on into the case of the child, which makes
the caller itself run the command.
-/
namespace Aesd.SystemCalls
open scoped List

/-- What a descriptor refers to: an output file, or something the caller had open. -/
inductive File where
  | inherited (id : ℕ)
  | output (path : String)
  deriving DecidableEq

/-- The descriptors below a limit, and the bytes that stdio has not written yet. -/
structure Process where
  fds : ℕ → Option File
  limit : ℕ
  stdout : List UInt8

inductive WaitStatus where
  | exited (code : UInt8)
  | signaled (signal : ℕ) (positive : 0 < signal)
  deriving DecidableEq

/-- WIFEXITED(w) && WEXITSTATUS(w) == 0 -/
def WaitStatus.success : WaitStatus → Bool
  | .exited code => code == 0
  | .signaled _ _ => false

/-- The status as an int: the code of an exit stands above the byte of the signal. -/
def WaitStatus.toInt : WaitStatus → ℤ
  | .exited code => code.toNat * 256
  | .signaled signal _ => signal

/-- How system goes: its shell cannot be made or waited for, or ends. -/
inductive SystemOutcome where
  | failed
  | ended (status : WaitStatus)
  deriving DecidableEq

def SystemOutcome.ret : SystemOutcome → ℤ
  | .failed => -1
  | .ended status => status.toInt

def EXIT_FAILURE : UInt8 := 1

/-- How a process goes on: as a command with this standard output, or not at all. -/
inductive Image where
  | command (argv : List String) (stdout : Option File)
  | exited (code : UInt8)
  deriving DecidableEq

/-- A child, and what wait will report of it. -/
structure Child where
  image : Image
  status : WaitStatus
  deriving DecidableEq

abbrev Writes := List (Option File × List UInt8)

structure World where
  self : Process
  children : List Child
  /-- what stdio has written, of the caller and of its children -/
  written : Writes

/-- Outcomes of the services that a call relies on. A command that is loaded ends with
the given status; wait is interrupted or returns the child of this number, counted
around. -/
structure CallEnv where
  isOpen : Bool
  fork : Bool
  dup2 : Bool
  execv : Bool
  status : WaitStatus
  wait : Option ℕ

/-- What a call did: its result, the descriptor from open, the child it forked and the
child it waited for. -/
structure Reply where
  result : Bool
  opened : Option ℕ
  forked : Option Child
  waited : Option Child
  deriving DecidableEq

inductive Call where
  | system (outcome : SystemOutcome) (cmd : Option String)
  | exec (env : CallEnv) (argv : List String)
  | execRedirect (env : CallEnv) (outputfile : String) (argv : List String)

/-- The bytes leave stdio. -/
def flush (p : Process) : Writes := if p.stdout = [] then [] else [(p.fds 1,p.stdout)]

def fflush (w : World) : World :=
  { w with self := { w.self with stdout := [] }, written := w.written ++ flush w.self }

/-- open takes the lowest descriptor that is free. -/
def lowestFree (p : Process) : Option ℕ := (List.range p.limit).find? (fun n => (p.fds n).isNone)

def close (p : Process) (fd : ℕ) : Process := { p with fds := Function.update p.fds fd none }

/-- exit(EXIT_FAILURE) -/
def exitFailure (p : Process) : Image × Writes := (.exited EXIT_FAILURE,flush p)

/-- execv(command[0], command); exit(EXIT_FAILURE); -/
def execOrExit (env : CallEnv) (p : Process) (argv : List String) : Image × Writes :=
  if env.execv then (.command argv (p.fds 1),[]) else exitFailure p

/-- The case 0 of do_exec_redirect. -/
def redirectOrExit (env : CallEnv) (p : Process) (fd : ℕ) (argv : List String) : Image × Writes :=
  match p.fds fd with
  | none => exitFailure p
  | some file =>
    if env.dup2 then execOrExit env (close { p with fds := Function.update p.fds 1 (some file) } fd) argv
    else exitFailure p

def childOf (env : CallEnv) : Image → Child
  | .command argv stdout => ⟨.command argv stdout,env.status⟩
  | .exited code => ⟨.exited code,.exited code⟩

/-- wait(&w) and the result that is made of it. -/
def waitChild (env : CallEnv) (w : World) (opened : Option ℕ) (forked : Child) : Reply × World :=
  match env.wait with
  | none => (⟨false,opened,some forked,none⟩,w)
  | some i =>
    let i := i % w.children.length
    match w.children[i]? with
    | none => (⟨false,opened,some forked,none⟩,w)
    | some c => (⟨c.status.success,opened,some forked,some c⟩,{ w with children := w.children.eraseIdx i })

/-- The default case, which is reached in the caller, with what the child does before. -/
def parent (env : CallEnv) (w : World) (opened : Option ℕ) (child : Image × Writes) : Reply × World :=
  let forked := childOf env child.1
  waitChild env { w with children := w.children ++ [forked], written := w.written ++ child.2 } opened forked

/-- The caller does not come back from a call that turns it into an image. -/
abbrev Gone := Image × World

def doSystem (outcome : SystemOutcome) (w : World) (cmd : Option String) : Reply × World :=
  match cmd with
  | some _ => (⟨outcome.ret == 0,none,none,none⟩,w)
  | none => (⟨false,none,none,none⟩,w)

def doExec (env : CallEnv) (w : World) (argv : List String) : Except Gone (Reply × World) :=
  if argv = [] then .ok (⟨true,none,none,none⟩,w)
  else
    let w := fflush w
    let (image,writes) := execOrExit env w.self argv
    -- case -1 has no break
    if !env.fork then .error (image,{ w with written := w.written ++ writes })
    else .ok (parent env w none (image,writes))

def doExecRedirect (env : CallEnv) (w : World) (outputfile : String) (argv : List String) :
    Except Gone (Reply × World) :=
  match if env.isOpen then lowestFree w.self else none with
  | none => .ok (⟨false,none,none,none⟩,w)
  | some fd =>
    let w := { w with self := { w.self with fds := Function.update w.self.fds fd (some (.output outputfile)) } }
    if argv = [] then .ok (⟨true,some fd,none,none⟩,w)
    else
      let w := fflush w
      if !env.fork then
        let w := { w with self := close w.self fd }
        let (image,writes) := redirectOrExit env w.self fd argv
        .error (image,{ w with written := w.written ++ writes })
      else
        let child := redirectOrExit env w.self fd argv
        .ok (parent env { w with self := close w.self fd } (some fd) child)

def Call.run (w : World) : Call → Except Gone (Reply × World)
  | .system outcome cmd => .ok (doSystem outcome w cmd)
  | .exec env argv => doExec env w argv
  | .execRedirect env outputfile argv => doExecRedirect env w outputfile argv

/-- What the caller prints before a call stays in stdio. -/
def print (w : World) (bytes : List UInt8) : World :=
  { w with self := { w.self with stdout := w.self.stdout ++ bytes } }

/-- Calls, each with what the caller prints before it. -/
def run : World → List (List UInt8 × Call) → Except Gone (List Reply × World)
  | w, [] => .ok ([],w)
  | w, (bytes,call) :: calls => do
    let (r,w) ← call.run (print w bytes)
    let (rs,w) ← run w calls
    return (r :: rs,w)

/-! ## What one call does -/

def Call.child (stdout : File) : Call → Option Child
  | .system _ _ => none
  | .exec env argv =>
    some (childOf env (if env.execv then .command argv (some stdout) else .exited EXIT_FAILURE))
  | .execRedirect env outputfile argv => some (childOf env
      (if env.dup2 && env.execv then .command argv (some (.output outputfile)) else .exited EXIT_FAILURE))

/-- The descriptor that a call leaves open, and the file. -/
def Call.leak (r : Reply) : Call → Option (ℕ × String)
  | .execRedirect _ outputfile [] => r.opened.map (fun fd => (fd,outputfile))
  | _ => none

def waitResult : Option Child → Bool
  | some c => c.status.success
  | none => false

/-- The bytes that stdio was given so far, written or not. -/
def given (w : World) : List UInt8 := w.written.flatMap Prod.snd ++ w.self.stdout

def withLeak (fds : ℕ → Option File) : Option (ℕ × String) → ℕ → Option File
  | some (fd,outputfile) => Function.update fds fd (some (.output outputfile))
  | none => fds

/-- The wait of the call returns a child. -/
def Call.Waits : Call → Prop
  | .system _ _ => True
  | .exec env _ | .execRedirect env _ _ => env.wait.isSome = true

/-- The call gets as far as its fork. -/
def Call.Forks (r : Reply) : Call → Prop
  | .system _ _ => False
  | .exec _ argv => argv ≠ []
  | .execRedirect _ _ argv => argv ≠ [] ∧ r.opened ≠ none

/-- The result of a call that does not. -/
def Call.Idle (r : Reply) : Call → Prop
  | .system outcome cmd => r.result = true ↔ cmd ≠ none ∧ outcome = .ended (.exited 0)
  | .exec _ argv => argv = [] ∧ r.result = true
  | .execRedirect _ _ argv => (r.opened = none ∧ r.result = false) ∨
      (r.opened ≠ none ∧ argv = [] ∧ r.result = true)

/-- What was written went to the file of descriptor 1, and the child has the output that
it should have. -/
structure Directed (stdout : File) (w : World) (call : Call) (r : Reply) (w' : World) : Prop where
  written : ∀ q ∈ w'.written, q ∈ w.written ∨ q.1 = some stdout
  child : ∀ c ∈ r.forked, call.child stdout = some c

/-- A call that came back. -/
structure Ran (w : World) (call : Call) (r : Reply) (w' : World) : Prop where
  fds : w'.self.fds = withLeak w.self.fds (call.leak r)
  free : ∀ q ∈ call.leak r, w.self.fds q.1 = none
  given : given w' = given w
  children : (r.waited.toList ++ w'.children).Perm (w.children ++ r.forked.toList)
  forked : r.forked ≠ none → call.Forks r ∧ r.result = waitResult r.waited
  idle : r.forked = none → call.Idle r
  own : w.children = [] → call.Waits → r.waited = r.forked
  directed : ∀ stdout, w.self.fds 1 = some stdout → Directed stdout w call r w'

theorem SystemOutcome.ret_eq_zero_iff (outcome : SystemOutcome) :
    outcome.ret = 0 ↔ outcome = .ended (.exited 0) := by
  rcases outcome with _ | ⟨⟨code⟩ | ⟨signal,hpos⟩⟩
  · simp [SystemOutcome.ret]
  · have hcode : (code.toNat : ℤ) * 256 = 0 ↔ code = 0 := by
      rw [← UInt8.toNat_inj]
      change _ ↔ code.toNat = 0
      omega
    simpa only [SystemOutcome.ret,WaitStatus.toInt,SystemOutcome.ended.injEq,WaitStatus.exited.injEq]
      using hcode
  · simp [SystemOutcome.ret,WaitStatus.toInt,hpos.ne']

theorem waitChild_spec {env : CallEnv} {w w' : World} {opened : Option ℕ} {forked : Child} {r : Reply}
    (h : waitChild env w opened forked = (r,w')) :
    w'.self = w.self ∧ w'.written = w.written ∧ (r.waited.toList ++ w'.children).Perm w.children ∧
      r.opened = opened ∧ r.forked = some forked ∧ r.result = waitResult r.waited ∧
      (env.wait.isSome = true → w.children = [forked] → r.waited = some forked) := by
  cases hwait : env.wait with
  | none =>
    simp only [waitChild,hwait] at h
    cases h
    exact ⟨rfl,rfl,.rfl,rfl,rfl,rfl,by simp⟩
  | some i =>
    simp only [waitChild,hwait] at h
    cases hc : w.children[i % w.children.length]? with
    | none =>
      rw [hc] at h
      cases h
      refine ⟨rfl,rfl,.rfl,rfl,rfl,rfl,?_⟩
      intro _ hone
      simp [hone,Nat.mod_one] at hc
    | some c =>
      rw [hc] at h
      cases h
      obtain ⟨hlt,hget⟩ := List.getElem?_eq_some_iff.mp hc
      refine ⟨rfl,rfl,?_,rfl,rfl,rfl,?_⟩
      · rw [← hget]
        exact List.getElem_cons_eraseIdx_perm hlt
      · intro _ hone
        simp only [hone,List.length_singleton,Nat.mod_one,List.getElem?_cons_zero] at hc
        exact hc.symm

theorem given_fflush (w : World) : given (fflush w) = given w := by
  by_cases h : w.self.stdout = [] <;> simp [given,fflush,flush,h]

theorem execOrExit_flushed {p : Process} (h : p.stdout = []) (env : CallEnv) (argv : List String) :
    execOrExit env p argv = (if env.execv then .command argv (p.fds 1) else .exited EXIT_FAILURE,[]) := by
  cases hx : env.execv <;> simp [execOrExit,hx,exitFailure,flush,h]

theorem redirectOrExit_flushed {p : Process} (h : p.stdout = []) (env : CallEnv) {fd : ℕ} {file : File}
    (hfd : fd ≠ 1) (hfile : p.fds fd = some file) (argv : List String) :
    redirectOrExit env p fd argv =
      (if env.dup2 && env.execv then .command argv (some file) else .exited EXIT_FAILURE,[]) := by
  cases hd : env.dup2 with
  | false => simp [redirectOrExit,hfile,hd,exitFailure,flush,h]
  | true =>
    have hclosed : (close { p with fds := Function.update p.fds 1 (some file) } fd).stdout = [] := h
    simp only [redirectOrExit,hfile,hd,if_true,Bool.true_and]
    rw [execOrExit_flushed hclosed]
    simp [close,Function.update_of_ne hfd.symm]

theorem redirectOrExit_writes {p : Process} (h : p.stdout = []) (env : CallEnv) (fd : ℕ)
    (argv : List String) :
    ((redirectOrExit env p fd argv).1,[]) = redirectOrExit env p fd argv := by
  cases hfd : p.fds fd with
  | none => simp [redirectOrExit,hfd,exitFailure,flush,h]
  | some file =>
    cases hd : env.dup2 with
    | false => simp [redirectOrExit,hfd,hd,exitFailure,flush,h]
    | true =>
      have hclosed : (close { p with fds := Function.update p.fds 1 (some file) } fd).stdout = [] := h
      simp [redirectOrExit,hfd,hd,execOrExit_flushed hclosed]

theorem lowestFree_spec {p : Process} {fd : ℕ} (h : lowestFree p = some fd) : p.fds fd = none := by
  simpa using List.find?_some h

theorem written_fflush {stdout : File} {w : World} (hout : w.self.fds 1 = some stdout) :
    ∀ q ∈ (fflush w).written, q ∈ w.written ∨ q.1 = some stdout := by
  intro q hq
  simp only [fflush,flush,List.mem_append] at hq
  refine hq.imp_right (fun hnew => ?_)
  split at hnew
  · simp at hnew
  · rw [List.mem_singleton.mp hnew]
    exact hout

theorem Ran.of_parent {w v w' : World} {call : Call} {r : Reply} {env : CallEnv} {image : Image}
    {opened : Option ℕ} (h : parent env v opened (image,[]) = (r,w'))
    (hforks : r.opened = opened → call.Forks r) (hwaits : call.Waits → env.wait.isSome = true)
    (hleak : call.leak r = none) (hfds : v.self.fds = w.self.fds)
    (hgiven : SystemCalls.given v = SystemCalls.given w) (hchildren : v.children = w.children)
    (hdirected : ∀ stdout, w.self.fds 1 = some stdout → call.child stdout = some (childOf env image) ∧
      ∀ q ∈ v.written, q ∈ w.written ∨ q.1 = some stdout) : Ran w call r w' := by
  simp only [parent,List.append_nil] at h
  obtain ⟨hself,hlog,hperm,hopened,hforked,hresult,hown⟩ := waitChild_spec h
  refine ⟨by rw [hself,hleak]; exact hfds,by simp [hleak],?_,?_,fun _ => ⟨hforks hopened,hresult⟩,
    by simp [hforked],?_,fun stdout hout => ⟨?_,?_⟩⟩
  · rw [SystemCalls.given,hself,hlog]
    exact hgiven
  · rw [hforked,← hchildren]
    exact hperm
  · intro hnone hw
    rw [hforked]
    exact hown (hwaits hw) (by simp [hchildren,hnone])
  · rw [hlog]
    exact (hdirected stdout hout).2
  · intro c hc
    rw [hforked] at hc
    obtain rfl := Option.mem_some_iff.mp hc
    exact (hdirected stdout hout).1

theorem Directed.of_idle {stdout : File} {w w' : World} {call : Call} {r : Reply}
    (hwritten : w'.written = w.written) (hforked : r.forked = none) : Directed stdout w call r w' :=
  ⟨fun q hq => .inl (hwritten ▸ hq),by simp [hforked]⟩

/-- do_exec without a command, or up to the wait of the caller. -/
theorem doExec_cases {w w' : World} {env : CallEnv} {argv : List String} {r : Reply}
    (h : doExec env w argv = .ok (r,w')) :
    (argv = [] ∧ r = ⟨true,none,none,none⟩ ∧ w' = w) ∨
    (argv ≠ [] ∧ parent env (fflush w) none
      (if env.execv then .command argv (w.self.fds 1) else .exited EXIT_FAILURE,[]) = (r,w')) := by
  by_cases hargv : argv = []
  · rw [doExec,if_pos hargv] at h
    cases h
    exact .inl ⟨hargv,rfl,rfl⟩
  · have hflushed : (fflush w).self.stdout = [] := rfl
    simp only [doExec,if_neg hargv,execOrExit_flushed hflushed] at h
    cases hfork : env.fork with
    | false => simp [hfork] at h
    | true =>
      simp only [hfork,Bool.not_true,Bool.false_eq_true,if_false,Except.ok.injEq] at h
      exact .inr ⟨hargv,h⟩

def opened (w : World) (fd : ℕ) (outputfile : String) : World :=
  { w with self := { w.self with fds := Function.update w.self.fds fd (some (.output outputfile)) } }

theorem doExecRedirect_cases {w w' : World} {env : CallEnv} {outputfile : String} {argv : List String}
    {r : Reply} (h : doExecRedirect env w outputfile argv = .ok (r,w')) :
    (r = ⟨false,none,none,none⟩ ∧ w' = w) ∨ ∃ fd, w.self.fds fd = none ∧
      ((argv = [] ∧ r = ⟨true,some fd,none,none⟩ ∧ w' = opened w fd outputfile) ∨
      (argv ≠ [] ∧ ∃ image, parent env
        { fflush (opened w fd outputfile) with self := close (fflush (opened w fd outputfile)).self fd }
          (some fd) (image,[]) = (r,w') ∧
        (fd ≠ 1 → image = if env.dup2 && env.execv then .command argv (some (.output outputfile))
          else .exited EXIT_FAILURE))) := by
  unfold doExecRedirect at h
  split at h
  case h_1 =>
    cases h
    exact .inl ⟨rfl,rfl⟩
  case h_2 fd hopen =>
    have hfree : w.self.fds fd = none := by
      split at hopen
      · exact lowestFree_spec hopen
      · cases hopen
    refine .inr ⟨fd,hfree,?_⟩
    split at h
    case isTrue hargv =>
      cases h
      exact .inl ⟨hargv,rfl,rfl⟩
    case isFalse hargv =>
      cases hfork : env.fork with
      | false => simp [hfork] at h
      | true =>
        simp only [hfork,Bool.not_true,Bool.false_eq_true,if_false,Except.ok.injEq] at h
        have hopened : (fflush (opened w fd outputfile)).self.fds fd = some (.output outputfile) := by
          simp [fflush,opened]
        refine .inr ⟨hargv,(redirectOrExit env (fflush (opened w fd outputfile)).self fd argv).1,?_,?_⟩
        · rw [redirectOrExit_writes rfl env fd argv]
          exact h
        · intro hfd
          rw [redirectOrExit_flushed rfl env hfd hopened]

theorem doExec_ran {w w' : World} {env : CallEnv} {argv : List String} {r : Reply}
    (h : doExec env w argv = .ok (r,w')) : Ran w (.exec env argv) r w' := by
  obtain ⟨hargv,rfl,rfl⟩ | ⟨hargv,hparent⟩ := doExec_cases h
  · exact ⟨rfl,by simp [Call.leak],rfl,by simp,by simp,fun _ => ⟨hargv,rfl⟩,fun _ _ => rfl,
      fun _ _ => .of_idle rfl rfl⟩
  · refine .of_parent hparent (fun _ => hargv) id rfl rfl (given_fflush w) rfl (fun stdout hout => ?_)
    exact ⟨by simp [Call.child,hout],written_fflush hout⟩

theorem doExecRedirect_ran {w w' : World} {env : CallEnv} {outputfile : String} {argv : List String}
    {r : Reply} (h : doExecRedirect env w outputfile argv = .ok (r,w')) :
    Ran w (.execRedirect env outputfile argv) r w' := by
  obtain ⟨rfl,rfl⟩ | ⟨fd,hfree,⟨rfl,rfl,rfl⟩ | ⟨hargv,image,hparent,himage⟩⟩ := doExecRedirect_cases h
  · refine ⟨?_,?_,rfl,by simp,by simp,fun _ => .inl ⟨rfl,rfl⟩,fun _ _ => rfl,fun _ _ => .of_idle rfl rfl⟩
    · cases argv <;> rfl
    · cases argv <;> simp [Call.leak]
  · refine ⟨rfl,?_,rfl,by simp [opened],by simp,fun _ => .inr ⟨by simp,rfl,rfl⟩,fun _ _ => rfl,
      fun _ _ => .of_idle rfl rfl⟩
    rintro q hq
    obtain rfl := Option.mem_some_iff.mp hq
    exact hfree
  · obtain ⟨path,args,rfl⟩ := List.exists_cons_of_ne_nil hargv
    refine .of_parent hparent (fun hopened => ⟨hargv,by simp [hopened]⟩) id rfl ?_
      (given_fflush (opened w fd outputfile)) rfl (fun stdout hout => ?_)
    · simp [close,fflush,opened,← hfree]
    · have hfd : fd ≠ 1 := by
        rintro rfl
        simp [hout] at hfree
      have hout' : (opened w fd outputfile).self.fds 1 = some stdout := by
        simp only [opened]
        rw [Function.update_of_ne hfd.symm,hout]
      exact ⟨by rw [himage hfd]; rfl,written_fflush hout'⟩

theorem Call.run_ran {w w' : World} {call : Call} {r : Reply} (h : call.run w = .ok (r,w')) :
    Ran w call r w' := by
  cases call with
  | system outcome cmd =>
    cases cmd with
    | none =>
      cases h
      exact ⟨rfl,by simp [Call.leak],rfl,by simp,by simp,by simp [Call.Idle],fun _ _ => rfl,
        fun _ _ => .of_idle rfl rfl⟩
    | some cmd =>
      cases h
      refine ⟨rfl,by simp [Call.leak],rfl,by simp,by simp,fun _ => ?_,fun _ _ => rfl,
        fun _ _ => .of_idle rfl rfl⟩
      simp [Call.Idle,outcome.ret_eq_zero_iff]
  | exec env argv => exact doExec_ran h
  | execRedirect env outputfile argv => exact doExecRedirect_ran h

theorem Ran.stdout {stdout : File} {w w' : World} {call : Call} {r : Reply} (h : Ran w call r w')
    (hout : w.self.fds 1 = some stdout) : w'.self.fds 1 = some stdout := by
  rw [h.fds]
  cases hleak : call.leak r with
  | none => exact hout
  | some q =>
    have hne : q.1 ≠ 1 := by
      intro hq
      have hfree := h.free q hleak
      rw [hq,hout] at hfree
      cases hfree
    rw [withLeak,Function.update_of_ne hne.symm,hout]

/-! ## Runs -/

/-- A run of calls that all came back. -/
inductive Runs : World → List (List UInt8 × Call) → List Reply → World → Prop
  | nil (w : World) : Runs w [] [] w
  | cons {w w₁ w₂ : World} {bytes : List UInt8} {call : Call} {calls : List (List UInt8 × Call)}
      {r : Reply} {rs : List Reply} (hcall : Ran (print w bytes) call r w₁)
      (hrest : Runs w₁ calls rs w₂) : Runs w ((bytes,call) :: calls) (r :: rs) w₂

theorem runs_of_run {w w' : World} {calls : List (List UInt8 × Call)} {rs : List Reply}
    (h : run w calls = .ok (rs,w')) : Runs w calls rs w' := by
  induction calls generalizing w rs with
  | nil =>
    cases h
    exact .nil _
  | cons q calls ih =>
    obtain ⟨bytes,call⟩ := q
    cases hcall : call.run (print w bytes) with
    | error e => simp [run,hcall,bind,Except.bind] at h
    | ok v =>
      obtain ⟨r,w₁⟩ := v
      cases hrest : run w₁ calls with
      | error e => simp [run,hcall,hrest,bind,Except.bind] at h
      | ok v =>
        obtain ⟨rs',w₂⟩ := v
        simp only [run,hcall,hrest,bind,Except.bind,pure,Except.pure,Except.ok.injEq,Prod.mk.injEq] at h
        obtain ⟨rfl,rfl⟩ := h
        exact .cons (Call.run_ran hcall) (ih hrest)

/-- Whatever wait returns and wherever it is interrupted, no child is reported twice and
none is forgotten: the children reported and those left are the ones from before and the
ones forked. The result of a call that forked is that of the child its wait returned. -/
theorem children_reported_once {w w' : World} {calls : List (List UInt8 × Call)}
    {rs : List Reply} (h : run w calls = .ok (rs,w')) :
    (rs.filterMap Reply.waited ++ w'.children).Perm (w.children ++ rs.filterMap Reply.forked) ∧
      ∀ r ∈ rs, r.forked ≠ none → r.result = waitResult r.waited := by
  have hruns := runs_of_run h
  clear h
  induction hruns with
  | nil => simp
  | @cons w w₁ w₂ bytes call calls r rs hcall hrest ih =>
    obtain ⟨hperm,hresults⟩ := ih
    constructor
    · have hhead : ∀ (f : Reply → Option Child), (r :: rs).filterMap f = (f r).toList ++ rs.filterMap f := by
        intro f
        cases hf : f r <;> simp [hf]
      rw [hhead,hhead,List.append_assoc]
      calc r.waited.toList ++ (rs.filterMap Reply.waited ++ w₂.children)
          ~ r.waited.toList ++ (w₁.children ++ rs.filterMap Reply.forked) := hperm.append_left _
        _ = r.waited.toList ++ w₁.children ++ rs.filterMap Reply.forked := (List.append_assoc ..).symm
        _ ~ w.children ++ r.forked.toList ++ rs.filterMap Reply.forked := hcall.children.append_right _
        _ = w.children ++ (r.forked.toList ++ rs.filterMap Reply.forked) := List.append_assoc ..
    · intro r' hr'
      obtain rfl | hr' := List.mem_cons.mp hr'
      · exact fun hne => (hcall.forked hne).2
      · exact hresults r' hr'

/-- A process with the three standard descriptors, of the sixteen that it may have. -/
def shell : World := ⟨⟨fun n => if n < 3 then some (.inherited n) else none,16,[]⟩,[],[]⟩

def grantingCall : CallEnv := ⟨true,true,true,true,.exited 0,some 0⟩

/-- The first wait is interrupted, and the second one returns the first child. -/
def staleCalls : List (List UInt8 × Call) :=
  [([],.exec { grantingCall with wait := none } ["/bin/true"]),
    ([],.exec { grantingCall with status := .exited 1 } ["/bin/false"])]

theorem staleCalls_report_once : ∃ rs w', run shell staleCalls = .ok (rs,w') ∧
    rs.map Reply.result = [false,true] ∧
    (rs.filterMap Reply.waited ++ w'.children).Perm (rs.filterMap Reply.forked) := by
  obtain ⟨⟨rs,w'⟩,hrun,hrs⟩ := Interleaving.exists_of_returns
    (show Interleaving.returns (fun v : List Reply × World => v.1.map Reply.result == [false,true])
      (run shell staleCalls) = true by decide)
  obtain ⟨hperm,-⟩ := children_reported_once hrun
  exact ⟨rs,w',hrun,beq_iff_eq.mp hrs,hperm⟩

/-- What the result of a call says: of do_system, that there was a command and its shell
exited with zero; of the others, that the output file could be opened, and that there was
no command or the child became it, with its output where it belongs, and exited with zero. -/
def Call.Reported (stdout : File) (r : Reply) : Call → Prop
  | .system outcome cmd => r.result = true ↔ cmd ≠ none ∧ outcome = .ended (.exited 0)
  | .exec _ argv => r.result = true ↔ argv = [] ∨
      ∃ c ∈ r.forked, c.image = .command argv (some stdout) ∧ c.status = .exited 0
  | .execRedirect _ outputfile argv => r.result = true ↔ r.opened ≠ none ∧ (argv = [] ∨
      ∃ c ∈ r.forked, c.image = .command argv (some (.output outputfile)) ∧ c.status = .exited 0)

theorem WaitStatus.success_iff (status : WaitStatus) : status.success = true ↔ status = .exited 0 := by
  cases status <;> simp [WaitStatus.success]

theorem success_childOf {env : CallEnv} {loaded : Bool} {argv : List String} {out : Option File} {c : Child}
    (hc : childOf env (if loaded then .command argv out else .exited EXIT_FAILURE) = c) :
    c.status.success = true ↔ c.image = .command argv out ∧ c.status = .exited 0 := by
  subst hc
  rw [WaitStatus.success_iff]
  cases loaded <;> simp [childOf,EXIT_FAILURE]

theorem Ran.reported {stdout : File} {w w' : World} {call : Call} {r : Reply} (h : Ran w call r w')
    (hout : w.self.fds 1 = some stdout) (hown : r.waited = r.forked) : call.Reported stdout r := by
  cases hforked : r.forked with
  | none =>
    have hidle := h.idle hforked
    cases call with
    | system outcome cmd => exact hidle
    | exec env argv =>
      obtain ⟨hargv,hres⟩ := hidle
      simp [Call.Reported,hargv,hres]
    | execRedirect env outputfile argv =>
      obtain ⟨hopened,hres⟩ | ⟨hopened,hargv,hres⟩ := hidle
      · simp [Call.Reported,hopened,hres]
      · simp [Call.Reported,hopened,hargv,hres]
  | some c =>
    obtain ⟨hforks,hres⟩ := h.forked (by simp [hforked])
    have hchild := (h.directed stdout hout).child c hforked
    rw [hown,hforked,waitResult] at hres
    cases call with
    | system outcome cmd => exact absurd hforks id
    | exec env argv =>
      have hargv : argv ≠ [] := hforks
      have hsuccess := success_childOf (Option.some.inj hchild)
      simp only [Call.Reported,hres,hforked,Option.mem_some_iff,hargv,false_or]
      rw [hsuccess]
      simp
    | execRedirect env outputfile argv =>
      obtain ⟨hargv,hopened⟩ := hforks
      have hsuccess := success_childOf (Option.some.inj hchild)
      simp only [Call.Reported,hres,hforked,Option.mem_some_iff,hargv,hopened,false_or,ne_eq,
        not_false_eq_true,true_and]
      rw [hsuccess]
      simp

/-- In a caller whose descriptor 1 is open, when nothing else is to be waited for and no
wait is interrupted, every result is about its own call, and no child is left behind. -/
theorem calls_report_own {stdout : File} {w w' : World} {calls : List (List UInt8 × Call)}
    {rs : List Reply} (hout : w.self.fds 1 = some stdout) (hnone : w.children = [])
    (hwaits : ∀ q ∈ calls, q.2.Waits) (h : run w calls = .ok (rs,w')) :
    w'.children = [] ∧ List.Forall₂ (fun q r => q.2.Reported stdout r) calls rs := by
  have hruns := runs_of_run h
  clear h
  induction hruns with
  | nil => exact ⟨hnone,.nil⟩
  | @cons w w₁ w₂ bytes call calls r rs hcall hrest ih =>
    have hown := hcall.own hnone (hwaits (bytes,call) List.mem_cons_self)
    have hleft : w₁.children = [] := by
      have hperm := hcall.children
      rw [show (print w bytes).children = [] from hnone,hown,List.nil_append] at hperm
      simpa using hperm.length_eq
    obtain ⟨hend,hreported⟩ :=
      ih (hcall.stdout hout) hleft (fun q hq => hwaits q (List.mem_cons_of_mem _ hq))
    exact ⟨hend,.cons (hcall.reported hout hown) hreported⟩

/-- A command that runs, one that cannot be run, and a redirection of no command. -/
def mixedCalls : List (List UInt8 × Call) :=
  [([104,105],.exec grantingCall ["/bin/true"]),
    ([10],.execRedirect { grantingCall with execv := false } "out.txt" ["true"]),
    ([],.execRedirect grantingCall "out.txt" []),([33],.system (.ended (.exited 0)) none)]

theorem mixedCalls_report_own : ∃ rs w', run shell mixedCalls = .ok (rs,w') ∧ w'.children = [] ∧
    rs.map Reply.result = [true,false,true,false] ∧
    List.Forall₂ (fun q r => q.2.Reported (.inherited 1) r) mixedCalls rs := by
  obtain ⟨⟨rs,w'⟩,hrun,hrs⟩ := Interleaving.exists_of_returns
    (show Interleaving.returns (fun v : List Reply × World => v.1.map Reply.result == [true,false,true,false])
      (run shell mixedCalls) = true by decide)
  obtain ⟨hleft,hreported⟩ := @calls_report_own (.inherited 1) shell w' mixedCalls rs rfl rfl
    (by simp [mixedCalls,Call.Waits,grantingCall]) hrun
  exact ⟨rs,w',hrun,hleft,beq_iff_eq.mp hrs,hreported⟩

def printed (calls : List (List UInt8 × Call)) : List UInt8 := (calls.map Prod.fst).flatten

theorem given_print (w : World) (bytes : List UInt8) : given (print w bytes) = given w ++ bytes := by
  simp [given,print]

theorem Runs.given {w w' : World} {calls : List (List UInt8 × Call)} {rs : List Reply}
    (h : Runs w calls rs w') : SystemCalls.given w' = SystemCalls.given w ++ printed calls := by
  induction h with
  | nil => simp [printed]
  | cons hcall hrest ih =>
    rw [ih,hcall.given,given_print,List.append_assoc]
    rfl

/-- The call whose fork failed, and what has become of the caller. -/
def Call.Takes (stdout : File) (image : Image) : Call → Prop
  | .system _ _ => False
  | .exec env argv => argv ≠ [] ∧ env.fork = false ∧
      image = if env.execv then .command argv (some stdout) else .exited EXIT_FAILURE
  | .execRedirect env _ argv => argv ≠ [] ∧ env.fork = false ∧ image = .exited EXIT_FAILURE

end Aesd.SystemCalls
