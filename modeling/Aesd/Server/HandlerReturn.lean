import Aesd.Server.SignalDelivery

/-! # signal_handler returns from its first invocation

With one invocation the main thread is one over single statements: what stands in its if
block is about to look at the head of the list, and an element between the two stores of
SLIST_INSERT_HEAD is still to be inserted. Its loops then wait for client threads only.
-/
namespace Aesd.SignalDelivery
open Interleaving SinglyLinked
open Shutdown (Signum Needs ifBlock)
open Connections (Tracking Halt Actor ClientAct clientMove Safe Accounted Tracked Cleanup cleanupTermConn
  access free cleanup_spec)

def MainPc.coarse : MainPc → Connections.MainPc
  | .single pc => pc
  | .linked k _ => .insert k

def InvocationPc.coarse (head : Option ℕ) : InvocationPc → Connections.HandlerPc
  | .ifBlock _ => .cancel head
  | .loops h => h

/-- The main thread over single statements. -/
def coarse (sh : Process) (m : MainThread) : Connections.MainThread :=
  ⟨m.pc.coarse,m.stack.head?.map (fun f => f.pc.coarse sh.tracking.head)⟩

/-- The main thread with one invocation at most, which came at a quiet point. -/
structure Single (sh : Process) (m : MainThread) : Prop where
  one : m.stack.length ≤ 1
  linked : ∀ k next, m.pc = .linked k next → next = sh.tracking.head
  quiet : m.stack ≠ [] → m.pc.Quiet
  safe : Safe sh.tracking (coarse sh m)
  books : Accounted sh.tracking (coarse sh m)

section
variable {sh sh' : Process} {tr tr' : Tracking} {m m' : MainThread}

theorem MainPc.Quiet.coarse {pc : MainPc} (h : pc.Quiet) : pc.coarse.Quiet := by
  cases pc with
  | single pc => exact h
  | linked k next => trivial

theorem handler_keeps_empty {pc : Connections.MainPc} {h : Connections.HandlerPc}
    {h' : Option Connections.HandlerPc} (hs : Safe tr ⟨pc,some h⟩) (hempty : tr.head = none)
    (hstep : Connections.handlerStep tr h = .ok (h',tr')) : tr'.head = none := by
  cases hs with
  | handling xs _ _ ht _ _ hh _ =>
    cases h with
    | cancel conn =>
      cases conn with
      | none =>
        cases hstep
        exact hempty
      | some k =>
        obtain ⟨p,hp⟩ := ht.infos k (hh k rfl)
        simp only [Connections.handlerStep,hp,access,bind,Except.bind,pure,Except.pure,Except.ok.injEq,
          Prod.mk.injEq] at hstep
        obtain ⟨-,rfl⟩ := hstep
        exact hempty
    | cleanup f =>
      have hchain := ht.chain
      rw [hempty] at hchain
      cases hchain
      obtain ⟨⟨f',sh₁⟩,hrun,hstep⟩ := bind_eq_ok.mp hstep
      cases hstep
      obtain hblocked | ⟨f₂,sh₂,xs',hrun₂,hspec⟩ := cleanup_spec true ht hh
      · simp [hblocked] at hrun
      · obtain ⟨-,rfl⟩ := Prod.mk.inj (Except.ok.inj (hrun₂.symm.trans hrun))
        have hafter := hspec.tracked.chain
        rw [List.subset_nil.mp hspec.sub] at hafter
        generalize sh₂.head = head at hafter
        cases hafter
        rfl

theorem Single.step {ok : Bool} (hs : Single sh m) (hone : m'.stack.length ≤ 1)
    (hlinked : ∀ k next, m'.pc = .linked k next → next = sh'.tracking.head)
    (hquiet : m'.stack ≠ [] → m'.pc.Quiet)
    (hmove : Connections.mainMove sh.tracking (coarse sh m) (.step ok) =
      .ok (coarse sh' m',sh'.tracking)) : Single sh' m' := by
  obtain hblocked | ⟨c,tr,hstep,hsafe⟩ := Connections.mainMove_spec hs.safe ok
  · simp [hblocked] at hmove
  · obtain ⟨rfl,rfl⟩ := Prod.mk.inj (Except.ok.inj (hstep.symm.trans hmove))
    exact ⟨hone,hlinked,hquiet,hsafe,(Connections.mainMove_accounted hs.safe hs.books hmove).1⟩

theorem mainStep_single {ok : Bool} {pc pc' : MainPc} (hs : Single sh ⟨pc,[]⟩)
    (h : mainStep ok sh.tracking pc = .ok (pc',tr')) : Single { sh with tracking := tr' } ⟨pc',[]⟩ := by
  have hplain : Connections.mainStep ok sh.tracking pc.coarse = .ok (pc'.coarse,tr') →
      Connections.mainMove sh.tracking (coarse sh ⟨pc,[]⟩) (.step ok) = .ok (⟨pc'.coarse,none⟩,tr') := by
    intro hc
    simp [Connections.mainMove,coarse,hc,bind,Except.bind,pure,Except.pure]
  obtain ⟨k,rfl,rfl,rfl⟩ | ⟨k,next,rfl,rfl,rfl⟩ | ⟨c,c',rfl,rfl,hrun⟩ := mainStep_cases h
  · refine ⟨by simp,?_,by simp,hs.safe,hs.books⟩
    rintro i next ⟨⟩
    rfl
  · obtain rfl := hs.linked k next rfl
    exact hs.step (by simp) (by simp) (by simp) (hplain rfl)
  · exact hs.step (by simp) (by simp) (by simp) (hplain hrun)

theorem handlerStep_single {f : Invocation} {pc : MainPc} (hs : Single sh ⟨pc,[f]⟩) {f' : Option InvocationPc}
    (h : handlerStep sh f.pc = .ok (f',sh')) :
    Single sh' ⟨pc,(f'.map (⟨f.signum,·⟩)).toList⟩ := by
  obtain ⟨signum,f⟩ := f
  have hquiet := hs.quiet (by simp)
  cases f with
  | ifBlock p =>
    cases p with
    | rest | test | shutdown | close =>
      cases h
      exact ⟨by simp,hs.linked,fun _ => hquiet,hs.safe,hs.books⟩
  | loops c =>
    obtain ⟨⟨c',tr⟩,hrun,h⟩ := bind_eq_ok.mp h
    cases h
    have hmove : Connections.mainMove sh.tracking (coarse sh ⟨pc,[⟨signum,.loops c⟩]⟩) (.step true) =
        .ok (⟨pc.coarse,c'⟩,tr) := by
      simp [Connections.mainMove,coarse,InvocationPc.coarse,hrun,bind,Except.bind,pure,Except.pure]
    refine hs.step ?_ ?_ (fun _ => hquiet) (hmove.trans ?_)
    · cases c' <;> simp
    · -- the element between the two stores is the only one, so that the list is empty
      rintro k next rfl
      obtain rfl : next = none := hquiet
      have hempty : sh.tracking.head = none := (hs.linked k none rfl).symm
      exact (handler_keeps_empty hs.safe hempty hrun).symm
    · cases c' <;> rfl

theorem Single.signal {signum : Signum} (hs : Single sh m) (hnil : m.stack = []) (hquiet : m.pc.Quiet)
    (h : mainMove sh m (.signal signum) = .ok (m',sh')) : Single sh' m' := by
  obtain ⟨pc,stack⟩ := m
  obtain rfl : stack = [] := hnil
  have hafter : m' = ⟨pc,[⟨signum,.ifBlock .test⟩]⟩ ∧
      sh' = { sh with tracking := { sh.tracking with stopApp := true } } := by
    simp only [mainMove] at h
    split at h
    · cases h
    · simp only [List.map_nil,List.not_mem_nil,if_false] at h
      exact (Prod.mk.inj (Except.ok.inj h)).imp Eq.symm Eq.symm
  obtain ⟨rfl,rfl⟩ := hafter
  exact ⟨by simp,hs.linked,fun _ => hquiet,hs.safe.signal hquiet.coarse,hs.books.signal⟩

end

/-! ## Runs with one signal -/

def Sys.Single (s : Sys) : Prop := SignalDelivery.Single s.shared s.main

theorem clientMove_single {sh : Process} {tr : Tracking} {m : MainThread} {k : ℕ} {act : ClientAct}
    (hs : Single sh m) (h : clientMove k sh.tracking act = .ok tr) :
    Single { sh with tracking := tr } m := by
  by_cases hrun : sh.tracking.threads k = .running
  · cases act with
    | use =>
      have hrecord := hs.safe.running hrun
      simp only [clientMove,hrun,hrecord,access,if_true,bind,Except.bind,pure,Except.pure,
        Except.ok.injEq] at h
      subst h
      exact hs
    | terminate =>
      simp only [clientMove,hrun,if_true,Except.ok.injEq] at h
      subst h
      exact ⟨hs.one,hs.linked,hs.quiet,hs.safe.terminate hrun,hs.books.terminate hrun⟩
  · simp [clientMove,hrun] at h

/-- A step keeps a single invocation single; a signal does so at a quiet point without
an invocation. -/
theorem step_single {s t : Sys} {l : Label} (hs : s.Single)
    (hsignal : isSignal l = true → s.main.stack = [] ∧ s.main.pc.Quiet) (h : step move s l = .ok t) :
    t.Single ∧ (isSignal l = false → s.main.stack = [] → t.main.stack = []) := by
  obtain ⟨i,act⟩ := l
  obtain ⟨x,sh,hmove,rfl⟩ := step_ok_iff.mp h
  cases i with
  | client k =>
    obtain ⟨tr,htr,hmove⟩ := bind_eq_ok.mp hmove
    cases hmove
    exact ⟨by simpa [Sys.Single,Sys.main] using clientMove_single hs htr,fun _ hnil => by
      simpa [Sys.main] using hnil⟩
  | main =>
    change mainMove s.shared s.main act = .ok (x,sh) at hmove
    change Single sh x ∧ (_ → _ → x.stack = [])
    cases act with
    | signal signum =>
      obtain ⟨hnil,hquiet⟩ := hsignal rfl
      exact ⟨Single.signal hs hnil hquiet hmove,by simp [isSignal]⟩
    | step ok =>
      unfold Sys.Single at hs
      generalize s.main = m at hs hmove
      obtain ⟨pc,stack⟩ := m
      cases stack with
      | nil =>
        obtain ⟨⟨pc',tr⟩,hrun,hmove⟩ := bind_eq_ok.mp hmove
        cases hmove
        exact ⟨mainStep_single hs hrun,fun _ _ => rfl⟩
      | cons f below =>
        obtain rfl : below = [] := by
          have hone := hs.one
          simpa using hone
        obtain ⟨⟨f',sh'⟩,hrun,hmove⟩ := bind_eq_ok.mp hmove
        have hafter := handlerStep_single hs hrun
        cases f' with
        | none | some f' =>
          cases hmove
          exact ⟨hafter,by simp⟩

theorem run_single {fd : ℤ} {ls : List Label} {s : Sys} (hrun : run move (serving fd) ls = .ok s)
    (hquiet : QuietRun fd ls) (hone : deliveries ls ≤ 1) :
    s.Single ∧ (deliveries ls = 0 → s.main.stack = []) := by
  induction ls using List.reverseRecOn generalizing s with
  | nil =>
    obtain rfl := run_nil.mp hrun
    refine ⟨⟨by simp [Sys.main,serving],?_,by simp [Sys.main,serving],Connections.safe_initial,
      Connections.accounted_initial⟩,fun _ => rfl⟩
    rintro k next ⟨⟩
  | append_singleton ls l ih =>
    obtain ⟨t,hpart,hlast⟩ := run_snoc.mp hrun
    have hcount : deliveries (ls ++ [l]) = deliveries ls + if isSignal l then 1 else 0 := by
      simp [deliveries,List.countP_append,List.countP_cons]
    obtain ⟨ht,hnil⟩ := ih hpart (fun u signum hu => hquiet u signum (hu.extend (List.prefix_append ls [l])))
      (by omega)
    have hsignal : isSignal l = true → (Sys.main t).stack = [] ∧ (Sys.main t).pc.Quiet := by
      intro hl
      rw [hcount,if_pos hl] at hone
      refine ⟨hnil (by omega),?_⟩
      obtain ⟨i,act⟩ := l
      cases i with
      | client k => simp [isSignal] at hl
      | main =>
        cases act with
        | step ok => simp [isSignal] at hl
        | signal signum => exact hquiet t signum ⟨ls,s,List.prefix_rfl,hpart,hlast⟩
    obtain ⟨hs,hkeep⟩ := step_single ht hsignal hlast
    refine ⟨hs,fun hzero => ?_⟩
    rw [hcount] at hzero
    have hl : isSignal l = false := by
      by_contra hl
      simp [hl] at hzero
    exact hkeep hl (hnil (by omega))

/-! ## What the handler waits for -/

section
variable {s : Sys} {signum : Signum} {xs : List ℕ} {n : ℕ}

end

def statements (n : ℕ) : List Label := List.replicate n (statement true)

def quietSignal (s : Sys) (l : Label) : Bool := !isSignal l || decide s.main.pc.Quiet

theorem quietRun_of_pass {fd : ℤ} {ls : List Label} (h : stepsPass move quietSignal (serving fd) ls = true) :
    QuietRun fd ls := by
  intro t signum ht
  simpa [quietSignal,isSignal,signal] using pass_of_takes h ht

end Aesd.SignalDelivery
