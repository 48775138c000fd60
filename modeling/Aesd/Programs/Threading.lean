import Aesd.Foundation.CriticalSection
import Mathlib.Data.Int.Notation
import Mathlib.Data.UInt

/-! # Threads that wait, take a mutex, wait and give it back

Any number of threads started by start_thread_obtaining_mutex, on any mutexes, with a
caller that may hold a mutex too. Only a thread whose second wait fails, or whose unlock
does, ends with the mutex still locked, and then it stays locked.
-/
namespace Aesd.Threading
open Interleaving CriticalSection

inductive Pc where
  | waitToObtain
  | lock
  | waitToRelease
  | unlock
  | finish (status : Bool)
  | done
  deriving DecidableEq

/-- struct thread_data. malloc leaves thread_complete_success undetermined. -/
structure ThreadData where
  mutex : ℕ
  waitToObtainMs : UInt32
  waitToReleaseMs : UInt32
  threadCompleteSuccess : Option Bool
  pc : Pc
  deriving DecidableEq

inductive Actor where
  | caller
  | thread (k : ℕ)
  deriving DecidableEq

/-- Who holds each mutex, and the microseconds that each thread asked usleep for. -/
structure Shared where
  owner : ℕ → Option Actor
  slept : ℕ → List ℕ

/-- Why a statement is not taken. notOwner is an unlock by a thread that does not hold the
mutex, which pthread_mutex_unlock leaves undefined. -/
inductive Halt where
  | blocked
  | nullPtr
  | notOwner
  | notNext
  deriving DecidableEq

inductive CallerAct where
  | lock (mutex : ℕ)
  | unlock (mutex : ℕ)
  deriving DecidableEq

inductive ThreadAct where
  | start (mutex : ℕ) (waitToObtainMs waitToReleaseMs : ℤ) (malloc create : Bool)
  | usleep (ok : Bool)
  | lock (ok : Bool)
  | unlock (ok : Bool)
  | finish
  deriving DecidableEq

abbrev ActorState : Actor → Type
  | .caller => Unit
  | .thread _ => Option ThreadData

abbrev ActorAct : Actor → Type
  | .caller => CallerAct
  | .thread _ => ThreadAct

/-- args->wait_ms*1000, in unsigned int. -/
def usec (ms : UInt32) : ℕ := (ms * 1000).toNat

/-- start_thread_obtaining_mutex, for the thread that it creates; it returns true exactly
when there is one. The pointer from malloc is not checked. -/
def startThreadObtainingMutex (mutex : ℕ) (waitToObtainMs waitToReleaseMs : ℤ) (malloc create : Bool) :
    Except Halt (Option ThreadData) :=
  if !malloc then .error .nullPtr
  else if !create then .ok none
  else .ok (some ⟨mutex,UInt32.ofInt waitToObtainMs,UInt32.ofInt waitToReleaseMs,none,.waitToObtain⟩)

def Shared.sleep (sh : Shared) (k : ℕ) (ms : UInt32) : Shared :=
  { sh with slept := Function.update sh.slept k (sh.slept k ++ [usec ms]) }

def Shared.setOwner (sh : Shared) (mutex : ℕ) (o : Option Actor) : Shared :=
  { sh with owner := Function.update sh.owner mutex o }

def threadfunc (k : ℕ) (sh : Shared) (d : ThreadData) : ThreadAct → Except Halt (ThreadData × Shared)
  | .usleep ok => match d.pc with
    | .waitToObtain =>
      .ok ({ d with pc := if ok then .lock else .finish false },sh.sleep k d.waitToObtainMs)
    | .waitToRelease =>
      .ok ({ d with pc := if ok then .unlock else .finish false },sh.sleep k d.waitToReleaseMs)
    | _ => .error .notNext
  | .lock ok =>
    if d.pc ≠ .lock then .error .notNext
    else if !ok then .ok ({ d with pc := .finish false },sh)
    else if sh.owner d.mutex = none then
      .ok ({ d with pc := .waitToRelease },sh.setOwner d.mutex (some (.thread k)))
    else .error .blocked
  | .unlock ok =>
    if d.pc ≠ .unlock then .error .notNext
    else if sh.owner d.mutex ≠ some (.thread k) then .error .notOwner
    else if ok then .ok ({ d with pc := .finish true },sh.setOwner d.mutex none)
    else .ok ({ d with pc := .finish false },sh)
  | .finish => match d.pc with
    | .finish status => .ok ({ d with threadCompleteSuccess := some status, pc := .done },sh)
    | _ => .error .notNext
  | .start _ _ _ _ _ => .error .notNext

def threadMove (k : ℕ) (sh : Shared) (x : Option ThreadData) (act : ThreadAct) :
    Except Halt (Option ThreadData × Shared) :=
  match x,act with
  | none,.start mutex waitToObtainMs waitToReleaseMs malloc create =>
    (startThreadObtainingMutex mutex waitToObtainMs waitToReleaseMs malloc create).map (fun x => (x,sh))
  | none,_ => .error .notNext
  | some d,act => (threadfunc k sh d act).map (fun r => (some r.1,r.2))

def callerMove (sh : Shared) : CallerAct → Except Halt Shared
  | .lock mutex =>
    if sh.owner mutex = none then .ok (sh.setOwner mutex (some .caller)) else .error .blocked
  | .unlock mutex =>
    if sh.owner mutex = some .caller then .ok (sh.setOwner mutex none) else .error .notOwner

def move : (i : Actor) → Shared → ActorState i → ActorAct i → Except Halt (ActorState i × Shared)
  | .caller, sh, (), act => (callerMove sh act).map (fun sh => ((),sh))
  | .thread k, sh, x, act => threadMove k sh x act

abbrev Sys := Config Shared ActorState
abbrev Label := Σ i, ActorAct i

def Sys.thread (s : Sys) (k : ℕ) : Option ThreadData := s.locals (.thread k)

def idle : Sys where
  shared := ⟨fun _ => none,fun _ => []⟩
  locals
    | .caller => ()
    | .thread _ => none

/-! ## What a statement can do -/

inductive ThreadStep (k : ℕ) (sh : Shared) :
    Option ThreadData → ThreadAct → Option ThreadData → Shared → Prop
  | refused (mutex : ℕ) (o r : ℤ) : ThreadStep k sh none (.start mutex o r true false) none sh
  | started (mutex : ℕ) (o r : ℤ) : ThreadStep k sh none (.start mutex o r true true)
      (some ⟨mutex,UInt32.ofInt o,UInt32.ofInt r,none,.waitToObtain⟩) sh
  | obtain (d : ThreadData) (hpc : d.pc = .waitToObtain) (ok : Bool) : ThreadStep k sh (some d) (.usleep ok)
      (some { d with pc := if ok then .lock else .finish false }) (sh.sleep k d.waitToObtainMs)
  | refuse (d : ThreadData) (hpc : d.pc = .lock) : ThreadStep k sh (some d) (.lock false)
      (some { d with pc := .finish false }) sh
  | lock (d : ThreadData) (hpc : d.pc = .lock) (hfree : sh.owner d.mutex = none) :
      ThreadStep k sh (some d) (.lock true) (some { d with pc := .waitToRelease })
        (sh.setOwner d.mutex (some (.thread k)))
  | release (d : ThreadData) (hpc : d.pc = .waitToRelease) (ok : Bool) : ThreadStep k sh (some d) (.usleep ok)
      (some { d with pc := if ok then .unlock else .finish false }) (sh.sleep k d.waitToReleaseMs)
  | keep (d : ThreadData) (hpc : d.pc = .unlock) : ThreadStep k sh (some d) (.unlock false)
      (some { d with pc := .finish false }) sh
  | unlock (d : ThreadData) (hpc : d.pc = .unlock) (hown : sh.owner d.mutex = some (.thread k)) :
      ThreadStep k sh (some d) (.unlock true) (some { d with pc := .finish true }) (sh.setOwner d.mutex none)
  | finish (d : ThreadData) (status : Bool) (hpc : d.pc = .finish status) : ThreadStep k sh (some d) .finish
      (some { d with threadCompleteSuccess := some status, pc := .done }) sh

theorem threadStep_of_move {k : ℕ} {sh sh' : Shared} {x x' : Option ThreadData} {act : ThreadAct}
    (h : threadMove k sh x act = .ok (x',sh')) : ThreadStep k sh x act x' sh' := by
  cases x with
  | none =>
    cases act with
    | start mutex o r malloc create =>
      cases malloc with
      | false => simp [threadMove,startThreadObtainingMutex,Except.map] at h
      | true =>
        cases create with
        | false =>
          cases h
          exact .refused mutex o r
        | true =>
          cases h
          exact .started mutex o r
    | _ => cases h
  | some d =>
    simp only [threadMove] at h
    cases hrun : threadfunc k sh d act with
    | error e => simp [hrun,Except.map] at h
    | ok v =>
      simp only [hrun,Except.map,Except.ok.injEq,Prod.mk.injEq] at h
      obtain ⟨rfl,rfl⟩ := h
      cases act with
      | start mutex o r malloc create => cases hrun
      | usleep ok =>
        simp only [threadfunc] at hrun
        split at hrun
        case h_1 hpc =>
          cases hrun
          exact .obtain d hpc ok
        case h_2 hpc =>
          cases hrun
          exact .release d hpc ok
        case h_3 => cases hrun
      | lock ok =>
        simp only [threadfunc] at hrun
        split at hrun
        · cases hrun
        case isFalse hpc =>
          have hlock : d.pc = .lock := not_not.mp hpc
          cases ok with
          | false =>
            cases hrun
            exact .refuse d hlock
          | true =>
            simp only [Bool.not_true,Bool.false_eq_true,if_false] at hrun
            split at hrun
            case isTrue hfree =>
              cases hrun
              exact .lock d hlock hfree
            case isFalse => cases hrun
      | unlock ok =>
        simp only [threadfunc] at hrun
        split at hrun
        · cases hrun
        case isFalse hpc =>
          have hunlock : d.pc = .unlock := not_not.mp hpc
          split at hrun
          · cases hrun
          case isFalse hown =>
            cases ok with
            | false =>
              cases hrun
              exact .keep d hunlock
            | true =>
              cases hrun
              exact .unlock d hunlock (not_not.mp hown)
      | finish =>
        simp only [threadfunc] at hrun
        split at hrun
        case h_1 status hpc =>
          cases hrun
          exact .finish d status hpc
        case h_2 => cases hrun

def ThreadData.Inside (d : ThreadData) : Prop := d.pc = .waitToRelease ∨ d.pc = .unlock

def ThreadData.status (d : ThreadData) : Option Bool :=
  match d.pc with
  | .finish status => some status
  | .done => d.threadCompleteSuccess
  | _ => none

theorem setOwner_owner (sh : Shared) (mutex : ℕ) (o : Option Actor) (m : ℕ) :
    (sh.setOwner mutex o).owner m = if m = mutex then o else sh.owner m := by
  simp only [Shared.setOwner,Function.update_apply]

@[simp] theorem sleep_owner (sh : Shared) (k : ℕ) (ms : UInt32) : (sh.sleep k ms).owner = sh.owner := rfl
@[simp] theorem setOwner_slept (sh : Shared) (mutex : ℕ) (o : Option Actor) :
    (sh.setOwner mutex o).slept = sh.slept := rfl

theorem keepsTo_owner (m : ℕ) : KeepsTo move (fun sh => sh.owner m) := by
  intro i sh x a x' sh' h
  cases i with
  | caller =>
    cases a with
    | lock mutex =>
      simp only [move,callerMove] at h
      split at h
      case isTrue hfree =>
        cases h
        by_cases hm : m = mutex
        · subst hm
          exact .inr (.inl ⟨hfree,by simp [setOwner_owner]⟩)
        · exact .inl (by simp [setOwner_owner,hm])
      case isFalse => cases h
    | unlock mutex =>
      simp only [move,callerMove] at h
      split at h
      case isTrue hown =>
        cases h
        by_cases hm : m = mutex
        · subst hm
          exact .inr (.inr ⟨hown,by simp [setOwner_owner]⟩)
        · exact .inl (by simp [setOwner_owner,hm])
      case isFalse => cases h
  | thread k =>
    cases threadStep_of_move h with
    | lock d hpc hfree =>
      by_cases hm : m = d.mutex
      · subst hm
        exact .inr (.inl ⟨hfree,by simp [setOwner_owner]⟩)
      · exact .inl (by simp [setOwner_owner,hm])
    | unlock d hpc hown =>
      by_cases hm : m = d.mutex
      · subst hm
        exact .inr (.inr ⟨hown,by simp [setOwner_owner]⟩)
      · exact .inl (by simp [setOwner_owner,hm])
    | _ => exact .inl rfl

/-- A thread holds no mutex but its own, that one for sure between lock and unlock, and
otherwise only after a failure. -/
structure Holding (k : ℕ) (sh : Shared) (x : Option ThreadData) : Prop where
  only : ∀ m, sh.owner m = some (.thread k) →
    ∃ d, x = some d ∧ d.mutex = m ∧ (d.Inside ∨ d.status = some false)
  inside : ∀ d, x = some d → d.Inside → sh.owner d.mutex = some (.thread k)
  known : ∀ d, x = some d → d.pc = .done → d.threadCompleteSuccess ≠ none

def HoldingAt : (i : Actor) → Shared → ActorState i → Prop
  | .caller => fun _ _ => True
  | .thread k => fun sh x => Holding k sh x

theorem Holding.free {k : ℕ} {sh : Shared} {d : ThreadData} (hx : Holding k sh (some d))
    (hin : ¬ d.Inside) (hstatus : d.status ≠ some false) (m : ℕ) : sh.owner m ≠ some (.thread k) := by
  intro hm
  obtain ⟨d',hd',-,hor⟩ := hx.only m hm
  obtain rfl := Option.some.inj hd'
  exact hor.elim hin hstatus

theorem ThreadStep.holding {k : ℕ} {sh sh' : Shared} {x x' : Option ThreadData} {act : ThreadAct}
    (h : ThreadStep k sh x act x' sh') (hx : Holding k sh x) : Holding k sh' x' := by
  cases h with
  | refused => exact hx
  | started mutex o r =>
    refine ⟨fun m hm => ?_,by simp [ThreadData.Inside],by simp⟩
    obtain ⟨d,hd,-⟩ := hx.only m hm
    cases hd
  | obtain d hpc ok =>
    have hfree := hx.free (by simp [ThreadData.Inside,hpc]) (by simp [ThreadData.status,hpc])
    refine ⟨fun m hm => absurd hm (hfree m),?_,?_⟩
    · rintro d' ⟨⟩ hin
      cases ok <;> simp [ThreadData.Inside] at hin
    · rintro d' ⟨⟩ hdone
      cases ok <;> simp at hdone
  | refuse d hpc =>
    have hfree := hx.free (by simp [ThreadData.Inside,hpc]) (by simp [ThreadData.status,hpc])
    refine ⟨fun m hm => absurd hm (hfree m),?_,?_⟩
    · rintro d' ⟨⟩ hin
      simp [ThreadData.Inside] at hin
    · rintro d' ⟨⟩ hdone
      simp at hdone
  | lock d hpc hown =>
    have hfree := hx.free (by simp [ThreadData.Inside,hpc]) (by simp [ThreadData.status,hpc])
    refine ⟨fun m hm => ?_,?_,?_⟩
    · rw [setOwner_owner] at hm
      split at hm
      case isTrue hmutex => exact ⟨_,rfl,hmutex.symm,.inl (.inl rfl)⟩
      case isFalse => exact absurd hm (hfree m)
    · rintro d' ⟨⟩ -
      simp [setOwner_owner]
    · rintro d' ⟨⟩ hdone
      simp at hdone
  | release d hpc ok =>
    have hown := hx.inside d rfl (.inl hpc)
    refine ⟨fun m hm => ?_,?_,?_⟩
    · obtain ⟨d',hd',hm',-⟩ := hx.only m hm
      obtain rfl := Option.some.inj hd'
      refine ⟨_,rfl,hm',?_⟩
      cases ok <;> simp [ThreadData.Inside,ThreadData.status]
    · rintro d' ⟨⟩ -
      exact hown
    · rintro d' ⟨⟩ hdone
      cases ok <;> simp at hdone
  | keep d hpc =>
    refine ⟨fun m hm => ?_,?_,?_⟩
    · obtain ⟨d',hd',hm',-⟩ := hx.only m hm
      obtain rfl := Option.some.inj hd'
      exact ⟨_,rfl,hm',.inr rfl⟩
    · rintro d' ⟨⟩ hin
      simp [ThreadData.Inside] at hin
    · rintro d' ⟨⟩ hdone
      simp at hdone
  | unlock d hpc hown =>
    refine ⟨fun m hm => ?_,?_,?_⟩
    · rw [setOwner_owner] at hm
      split at hm
      case isTrue => cases hm
      case isFalse hmutex =>
        obtain ⟨d',hd',hm',-⟩ := hx.only m hm
        obtain rfl := Option.some.inj hd'
        exact absurd hm'.symm hmutex
    · rintro d' ⟨⟩ hin
      simp [ThreadData.Inside] at hin
    · rintro d' ⟨⟩ hdone
      simp at hdone
  | finish d status hpc =>
    refine ⟨fun m hm => ?_,?_,?_⟩
    · obtain ⟨d',hd',hm',hor⟩ := hx.only m hm
      obtain rfl := Option.some.inj hd'
      refine ⟨_,rfl,hm',.inr ?_⟩
      simpa [ThreadData.Inside,ThreadData.status,hpc] using hor
    · rintro d' ⟨⟩ hin
      simp [ThreadData.Inside] at hin
    · rintro d' ⟨⟩ -
      simp

theorem Holding.congr {k : ℕ} {sh sh' : Shared} {x : Option ThreadData} (h : Holding k sh x)
    (hsame : ∀ m, sh'.owner m = some (.thread k) ↔ sh.owner m = some (.thread k)) : Holding k sh' x :=
  ⟨fun m hm => h.only m ((hsame m).mp hm),fun d hd hin => (hsame _).mpr (h.inside d hd hin),h.known⟩

theorem step_holding {s s' : Sys} {l : Label} (hs : Everywhere HoldingAt s) (h : step move s l = .ok s') :
    Everywhere HoldingAt s' := by
  obtain ⟨i,a⟩ := l
  obtain ⟨x,sh,hmove,rfl⟩ := step_ok_iff.mp h
  refine hs.update ?_ ?_
  · cases i with
    | caller => trivial
    | thread k => exact (threadStep_of_move hmove).holding (hs (.thread k))
  · intro j hj hholding
    cases j with
    | caller => trivial
    | thread k =>
      refine Holding.congr hholding (fun m => ?_)
      have hother := owner_of_other (keepsTo_owner m) (l := ⟨i,a⟩) hj h
      exact hother

theorem visits_holding {ls : List Label} {s : Sys} (h : Visits move idle ls s) : Everywhere HoldingAt s := by
  refine h.always ?_ (fun _ _ _ hs hstep => step_holding hs hstep)
  intro i
  cases i with
  | caller => trivial
  | thread k => exact ⟨by simp [idle],by simp [idle],by simp [idle]⟩

/-- The call of pthread_mutex_unlock that frees a mutex of a thread is its own. -/
theorem unlock_of_released {k m : ℕ} {s s' : Sys} {a : ThreadAct} (h : step move s ⟨.thread k,a⟩ = .ok s')
    (hown : s.shared.owner m = some (.thread k)) (hfree : s'.shared.owner m = none) :
    a = .unlock true ∧ ∃ d, s.thread k = some d ∧ d.pc = .unlock := by
  obtain ⟨x,sh,hmove,rfl⟩ := step_ok_iff.mp h
  have hmove' : threadMove k s.shared (s.thread k) a = .ok (x,sh) := hmove
  generalize s.thread k = y at hmove' ⊢
  cases threadStep_of_move hmove' with
  | lock d hpc hunheld =>
    simp only [setOwner_owner] at hfree
    split at hfree
    · cases hfree
    · simp [hown] at hfree
  | unlock d hpc _ => exact ⟨rfl,d,rfl,hpc⟩
  | _ => simp [hown] at hfree

/-- From its lock to its unlock a thread is the only one that gets its mutex: until it
calls pthread_mutex_unlock itself, neither the caller nor another thread takes a step
into the mutex. -/
theorem waits_exclusive {ls : List Label} {s : Sys} (hs : Visits move idle ls s) {k : ℕ} {d : ThreadData}
    (hd : s.thread k = some d) (hin : d.Inside) :
    (∀ j d', s.thread j = some d' → d'.Inside → d'.mutex = d.mutex → j = k) ∧
    ∀ ms s', run move s ms = .ok s' → ⟨.thread k,.unlock true⟩ ∉ ms →
      s'.shared.owner d.mutex = some (.thread k) ∧
      (∀ t, ¬ Takes move s ms t ⟨.caller,.lock d.mutex⟩) ∧
      ∀ t j d', Takes move s ms t ⟨.thread j,.lock true⟩ → Sys.thread t j = some d' → d'.mutex ≠ d.mutex := by
  have hholding := visits_holding hs
  have hk : Holding k s.shared (s.thread k) := hholding (.thread k)
  have hown := hk.inside d hd hin
  have hkept : ∀ ns t, run move s ns = .ok t → ⟨.thread k,.unlock true⟩ ∉ ns →
      t.shared.owner d.mutex = some (.thread k) := by
    intro ns t hrun hno
    by_contra hlost
    obtain ⟨u,a,u',⟨pre,v,hpre,-,-⟩,hstep,hu,hu'⟩ := released_by_owner (keepsTo_owner d.mutex) hrun hown hlost
    obtain ⟨rfl,-⟩ := unlock_of_released hstep hu hu'
    exact hno (hpre.subset (by simp))
  refine ⟨fun j d' hd' hin' hmutex => ?_,fun ms s' hrun hno => ⟨hkept ms s' hrun hno,?_,?_⟩⟩
  · have hj : Holding j s.shared (s.thread j) := hholding (.thread j)
    have hboth := hj.inside d' hd' hin'
    rw [hmutex,hown] at hboth
    exact (Actor.thread.inj (Option.some.inj hboth)).symm
  · rintro t ⟨pre,t',hpre,hpart,hstep⟩
    have ht := hkept pre t hpart (fun hmem => hno (hpre.subset (List.mem_append_left _ hmem)))
    obtain ⟨x,sh,hmove,-⟩ := step_ok_iff.mp hstep
    simp [move,callerMove,ht,Except.map] at hmove
  · rintro t j d' ⟨pre,t',hpre,hpart,hstep⟩ hd' hmutex
    have ht := hkept pre t hpart (fun hmem => hno (hpre.subset (List.mem_append_left _ hmem)))
    obtain ⟨x,sh,hmove,-⟩ := step_ok_iff.mp hstep
    have hmove' : threadMove j t.shared (Sys.thread t j) (.lock true) = .ok (x,sh) := hmove
    rw [hd'] at hmove'
    cases threadStep_of_move hmove' with
    | lock _ hpc hfree => simp [hmutex,ht] at hfree

def locked (k m : ℕ) (o r : ℤ) : List Label :=
  [⟨.thread k,.start m o r true true⟩,⟨.thread k,.usleep true⟩,⟨.thread k,.lock true⟩]

/-- Another thread on the same mutex is in front of its lock. -/
def contendedRun : List Label :=
  locked 0 7 2 3 ++ [⟨.thread 1,.start 7 0 0 true true⟩,⟨.thread 1,.usleep true⟩]

theorem contendedRun_exclusive : ∃ s : Sys, run move idle contendedRun = .ok s ∧
    (s.thread 1).map ThreadData.pc = some .lock ∧ s.shared.owner 7 = some (.thread 0) ∧
    ∀ j d', s.thread j = some d' → d'.Inside → d'.mutex = 7 → j = 0 := by
  obtain ⟨s,hrun,hs⟩ := exists_of_returns
    (show returns (fun s : Sys => decide ((s.thread 1).map ThreadData.pc = some .lock ∧
      s.thread 0 = some ⟨7,2,3,none,.waitToRelease⟩)) (run move idle contendedRun) = true by decide)
  obtain ⟨hother,hd⟩ := of_decide_eq_true hs
  obtain ⟨hsame,hkept⟩ := waits_exclusive (Visits.of_run hrun) hd (.inl rfl)
  exact ⟨s,hrun,hother,(hkept [] s (run_nil.mpr rfl) (by simp)).1,hsame⟩

/-! ## What the success flag says -/

/-- What the local state of a thread says about the calls it has made. -/
structure Past (k : ℕ) (sh : Shared) (x : Option ThreadData) (locked gave : Prop) : Prop where
  gave_iff : gave ↔ ∃ d, x = some d ∧ d.status = some true
  locked_iff : locked ↔ ∃ d, x = some d ∧ (d.Inside ∨ d.status = some true ∨
    d.status = some false ∧ sh.owner d.mutex = some (.thread k))

theorem Past.congr {k : ℕ} {sh sh' : Shared} {x : Option ThreadData} {locked gave locked' gave' : Prop}
    (h : Past k sh x locked gave) (hlocked : locked' ↔ locked) (hgave : gave' ↔ gave)
    (hsame : ∀ m, sh'.owner m = some (.thread k) ↔ sh.owner m = some (.thread k)) :
    Past k sh' x locked' gave' := by
  refine ⟨hgave.trans h.gave_iff,hlocked.trans ?_⟩
  simp only [hsame]
  exact h.locked_iff

theorem ThreadStep.past {k : ℕ} {sh sh' : Shared} {x x' : Option ThreadData} {act : ThreadAct}
    {locked gave : Prop} (h : ThreadStep k sh x act x' sh') (hx : Holding k sh x)
    (hpast : Past k sh x locked gave) :
    Past k sh' x' (locked ∨ act = .lock true) (gave ∨ act = .unlock true) := by
  obtain ⟨hgave,hlocked⟩ := hpast
  cases h with
  | refused => exact ⟨by simpa using hgave,by simpa using hlocked⟩
  | started mutex o r =>
    exact ⟨by simpa [ThreadData.status] using hgave,by simpa [ThreadData.status,ThreadData.Inside] using hlocked⟩
  | obtain d hpc ok =>
    have hfree := hx.free (by simp [ThreadData.Inside,hpc]) (by simp [ThreadData.status,hpc]) d.mutex
    refine ⟨?_,?_⟩
    · rw [hgave]
      cases ok <;> simp [ThreadData.status,hpc]
    · rw [hlocked]
      cases ok <;> simp [ThreadData.status,ThreadData.Inside,hpc,hfree]
  | refuse d hpc =>
    have hfree := hx.free (by simp [ThreadData.Inside,hpc]) (by simp [ThreadData.status,hpc]) d.mutex
    refine ⟨?_,?_⟩
    · rw [hgave]
      simp [ThreadData.status,hpc]
    · rw [hlocked]
      simp [ThreadData.status,ThreadData.Inside,hpc,hfree]
  | lock d hpc hown =>
    refine ⟨?_,?_⟩
    · rw [hgave]
      simp [ThreadData.status,hpc]
    · simp [ThreadData.Inside]
  | release d hpc ok =>
    have hown := hx.inside d rfl (.inl hpc)
    refine ⟨?_,?_⟩
    · rw [hgave]
      cases ok <;> simp [ThreadData.status,hpc]
    · rw [hlocked]
      cases ok <;> simp [ThreadData.status,ThreadData.Inside,hpc,hown]
  | keep d hpc =>
    have hown := hx.inside d rfl (.inr hpc)
    refine ⟨?_,?_⟩
    · rw [hgave]
      simp [ThreadData.status,hpc]
    · rw [hlocked]
      simp [ThreadData.status,ThreadData.Inside,hpc,hown]
  | unlock d hpc hown =>
    refine ⟨by simp [ThreadData.status],?_⟩
    rw [hlocked]
    simp [ThreadData.status,ThreadData.Inside,hpc]
  | finish d status hpc =>
    refine ⟨?_,?_⟩
    · rw [hgave]
      simp [ThreadData.status,hpc]
    · rw [hlocked]
      simp [ThreadData.status,ThreadData.Inside,hpc]

theorem exists_takes_snoc {ls : List Label} {s s' : Sys} {l q : Label} (hrun : run move idle ls = .ok s)
    (h : step move s l = .ok s') :
    (∃ t, Takes move idle (ls ++ [l]) t q) ↔ (∃ t, Takes move idle ls t q) ∨ q = l := by
  simp only [takes_snoc hrun h,exists_or]
  exact or_congr_right ⟨fun ⟨_,_,hq⟩ => hq,fun hq => ⟨s,rfl,hq⟩⟩

theorem run_past {ls : List Label} {s : Sys} (k : ℕ) (h : run move idle ls = .ok s) :
    Past k s.shared (s.thread k) (∃ t, Takes move idle ls t ⟨.thread k,.lock true⟩)
      (∃ t, Takes move idle ls t ⟨.thread k,.unlock true⟩) := by
  induction ls using List.reverseRecOn generalizing s with
  | nil =>
    obtain rfl := run_nil.mp h
    refine ⟨?_,?_⟩ <;> simp [Sys.thread,idle,Takes]
  | append_singleton ls l ih =>
    obtain ⟨s₀,hrun,hstep⟩ := run_snoc.mp h
    have hbefore := ih hrun
    have hholding : Holding k s₀.shared (Sys.thread s₀ k) := visits_holding (Visits.of_run hrun) (.thread k)
    by_cases hl : .thread k = l.1
    · obtain ⟨i,a⟩ := l
      obtain rfl : .thread k = i := hl
      obtain ⟨x,sh,hmove,rfl⟩ := step_ok_iff.mp hstep
      have hpast := (threadStep_of_move hmove).past hholding hbefore
      have hx : Sys.thread ⟨sh,Function.update s₀.locals (.thread k) x⟩ k = x := by simp [Sys.thread]
      rw [hx]
      refine hpast.congr ?_ ?_ (fun _ => Iff.rfl)
      · rw [exists_takes_snoc hrun hstep]
        simp [eq_comm]
      · rw [exists_takes_snoc hrun hstep]
        simp [eq_comm]
    · have hother : ∀ a : ThreadAct, (⟨.thread k,a⟩ : Label) ≠ l := by
        rintro a rfl
        exact hl rfl
      have hsame := fun m => owner_of_other (keepsTo_owner m) hl hstep
      obtain ⟨x,sh,hmove,rfl⟩ := step_ok_iff.mp hstep
      have hlocal : Sys.thread ⟨sh,Function.update s₀.locals l.1 x⟩ k = Sys.thread s₀ k := by
        simp only [Sys.thread]
        exact Function.update_of_ne hl _ _
      rw [hlocal]
      refine hbefore.congr ?_ ?_ hsame
      · rw [exists_takes_snoc hrun hstep,or_iff_left (hother _)]
      · rw [exists_takes_snoc hrun hstep,or_iff_left (hother _)]

/-- A thread that has ended reports success exactly if it gave its mutex back. If it
reports a failure, it never got the mutex or still holds it. -/
theorem success_iff_gave_back {ls : List Label} {s : Sys} (h : run move idle ls = .ok s) {k : ℕ}
    {d : ThreadData} (hd : s.thread k = some d) (hdone : d.pc = .done) :
    ∃ status, d.threadCompleteSuccess = some status ∧
      (status = true ↔ ∃ t, Takes move idle ls t ⟨.thread k,.unlock true⟩) ∧
      (status = true → s.shared.owner d.mutex ≠ some (.thread k)) ∧
      (status = false → (s.shared.owner d.mutex = some (.thread k) ↔
        ∃ t, Takes move idle ls t ⟨.thread k,.lock true⟩)) := by
  have hholding : Holding k s.shared (s.thread k) := visits_holding (Visits.of_run h) (.thread k)
  obtain ⟨hgave,hlocked⟩ := run_past k h
  obtain ⟨status,hstatus⟩ := Option.ne_none_iff_exists'.mp (hholding.known d hd hdone)
  have hreport : d.status = some status := by simp [ThreadData.status,hdone,hstatus]
  have hout : ¬ d.Inside := by simp [ThreadData.Inside,hdone]
  rw [hd] at hgave hlocked hholding
  refine ⟨status,hstatus,?_,?_,?_⟩
  · rw [hgave]
    simp [hreport]
  · rintro rfl
    exact hholding.free hout (by simp [hreport]) d.mutex
  · rintro rfl
    rw [hlocked]
    simp [hreport,hout]

/-- A thread that ends well, and one whose second wait fails. -/
def endedRun : List Label :=
  locked 0 7 2 3 ++ [⟨.thread 0,.usleep true⟩,⟨.thread 0,.unlock true⟩,⟨.thread 0,.finish⟩] ++
    locked 1 7 0 0 ++ [⟨.thread 1,.usleep false⟩,⟨.thread 1,.finish⟩]

theorem endedRun_reports : ∃ s : Sys, run move idle endedRun = .ok s ∧
    (∃ d, s.thread 0 = some d ∧ d.threadCompleteSuccess = some true ∧
      s.shared.owner d.mutex ≠ some (.thread 0)) := by
  obtain ⟨s,hrun,hs⟩ := exists_of_returns
    (show returns (fun s : Sys => decide (s.thread 0 = some ⟨7,2,3,some true,.done⟩))
      (run move idle endedRun) = true by decide)
  have hd := of_decide_eq_true hs
  obtain ⟨status,hstatus,-,hgave,-⟩ := success_iff_gave_back hrun hd rfl
  obtain rfl := Option.some.inj hstatus
  exact ⟨s,hrun,_,hd,rfl,hgave rfl⟩

/-! ## Mutexes that stay locked -/

theorem ThreadStep.after {k : ℕ} {sh sh' : Shared} {x x' : Option ThreadData} {act : ThreadAct}
    (h : ThreadStep k sh x act x' sh') (hx : ∃ d status, x = some d ∧ d.status = some status) :
    ∃ d status, x' = some d ∧ d.status = some status := by
  obtain ⟨d,status,rfl,hstatus⟩ := hx
  cases h with
  | obtain d hpc | refuse d hpc | lock d hpc | release d hpc | keep d hpc | unlock d hpc =>
    simp [ThreadData.status,hpc] at hstatus
  | finish d b hpc => exact ⟨_,b,rfl,rfl⟩

theorem run_after {k : ℕ} {s s' : Sys} {ms : List Label} (h : run move s ms = .ok s')
    (hs : ∃ d status, s.thread k = some d ∧ d.status = some status) :
    ∃ d status, s'.thread k = some d ∧ d.status = some status := by
  refine (Visits.of_run h).always
    (I := fun t : Sys => ∃ d status, t.thread k = some d ∧ d.status = some status) hs ?_
  rintro t ⟨i,a⟩ t' ht hstep
  obtain ⟨x,sh,hmove,rfl⟩ := step_ok_iff.mp hstep
  by_cases hi : .thread k = i
  · subst hi
    have hafter := (threadStep_of_move hmove).after ht
    simpa [Sys.thread] using hafter
  · have hlocal : Sys.thread ⟨sh,Function.update t.locals i x⟩ k = Sys.thread t k := by
      simp only [Sys.thread]
      exact Function.update_of_ne hi _ _
    rw [hlocal]
    exact ht

theorem freeable_of_inside {k : ℕ} {sh : Shared} {d : ThreadData} (hin : d.Inside)
    (hown : sh.owner d.mutex = some (.thread k)) :
    Freeable move (fun sh => sh.owner d.mutex) (.thread k) sh (some d) := by
  have hunlock : ∀ (sh : Shared) (d : ThreadData), d.pc = .unlock → sh.owner d.mutex = some (.thread k) →
      Freeable move (fun sh => sh.owner d.mutex) (.thread k) sh (some d) := by
    intro sh d hpc hheld
    have hmove : move (.thread k) sh (some d) (.unlock true) =
        .ok (some { d with pc := .finish true },sh.setOwner d.mutex none) := by
      simp [move,threadMove,threadfunc,hpc,hheld,Except.map]
    exact .step hmove (.of_free (by simp [setOwner_owner]))
  rcases hin with hpc | hpc
  · have hmove : move (.thread k) sh (some d) (.usleep true) =
        .ok (some { d with pc := .unlock },sh.sleep k d.waitToReleaseMs) := by
      simp [move,threadMove,threadfunc,hpc,Except.map]
    exact .step hmove (hunlock _ { d with pc := .unlock } rfl hown)
  · exact hunlock sh d hpc hown

/-- A mutex that a thread holds can be freed, by anybody's moves, exactly as long as that
thread is between its lock and its unlock. When its second wait or its unlock has failed,
the mutex is locked for ever. -/
theorem can_be_freed_iff {ls : List Label} {s : Sys} (hs : Visits move idle ls s) {k m : ℕ}
    (hown : s.shared.owner m = some (.thread k)) :
    (∃ ms, ∃ t : Sys, run move s ms = .ok t ∧ t.shared.owner m = none) ↔
      ∃ d, s.thread k = some d ∧ d.Inside := by
  have hk : Holding k s.shared (s.thread k) := visits_holding hs (.thread k)
  obtain ⟨d,hd,rfl,hor⟩ := hk.only m hown
  constructor
  · rintro ⟨ms,t,hrun,hfree⟩
    refine ⟨d,hd,hor.resolve_right (fun hfailed => ?_)⟩
    obtain ⟨u,a,u',htakes,hstep,hu,hu'⟩ := released_by_owner (keepsTo_owner d.mutex) hrun hown (by simp [hfree])
    obtain ⟨pre,-,hpart⟩ := htakes.visits
    obtain ⟨d',status,hd',hstatus⟩ := run_after hpart ⟨d,false,hd,hfailed⟩
    obtain ⟨-,d'',hd'',hpc⟩ := unlock_of_released hstep hu hu'
    obtain rfl := Option.some.inj (hd'.symm.trans hd'')
    simp [ThreadData.status,hpc] at hstatus
  · rintro ⟨d',hd',hin⟩
    obtain rfl := Option.some.inj (hd.symm.trans hd')
    obtain ⟨as,x,sh,-,has,hfree⟩ := freeable_of_inside hin hown
    rw [← hd] at has
    exact ⟨_,_,run_of_solo has,hfree⟩

/-- The mutex of the thread that failed stays locked. -/
theorem endedRun_stays_locked : ∃ s : Sys, run move idle endedRun = .ok s ∧
    s.shared.owner 7 = some (.thread 1) ∧
    ∀ ms (t : Sys), run move s ms = .ok t → t.shared.owner 7 ≠ none := by
  obtain ⟨s,hrun,hs⟩ := exists_of_returns
    (show returns (fun s : Sys => decide (s.shared.owner 7 = some (.thread 1) ∧
      s.thread 1 = some ⟨7,0,0,some false,.done⟩)) (run move idle endedRun) = true by decide)
  obtain ⟨hown,hd⟩ := of_decide_eq_true hs
  refine ⟨s,hrun,hown,fun ms t ht hfree => ?_⟩
  obtain ⟨d,hd',hin⟩ := (can_be_freed_iff (Visits.of_run hrun) hown).mp ⟨ms,t,ht,hfree⟩
  obtain rfl := Option.some.inj (hd.symm.trans hd')
  simp [ThreadData.Inside] at hin

/-! ## The waits -/

theorem usec_ofInt (ms : ℤ) : (usec (UInt32.ofInt ms) : ℤ) = 1000 * ms % 2^32 := by
  have hms : (UInt32.ofInt ms).toNat = (ms % 2^32).toNat := by
    rw [UInt32.ofInt,UInt32.toNat_ofNat_of_lt']
    simp only [UInt32.size]
    omega
  rw [usec,UInt32.toNat_mul,hms,show (1000 : UInt32).toNat = 1000 from rfl]
  omega

theorem usec_exact_iff (ms : ℤ) : (usec (UInt32.ofInt ms) : ℤ) = 1000 * ms ↔ 0 ≤ ms ∧ 1000 * ms < 2^32 := by
  rw [usec_ofInt]
  omega

def ThreadData.Slept (d : ThreadData) (l : List ℕ) : Prop :=
  match d.pc with
  | .waitToObtain => l = []
  | .lock | .waitToRelease => l = [usec d.waitToObtainMs]
  | .unlock => l = [usec d.waitToObtainMs,usec d.waitToReleaseMs]
  | _ => d.status = some true → l = [usec d.waitToObtainMs,usec d.waitToReleaseMs]

def SleptAt : (i : Actor) → Shared → ActorState i → Prop
  | .caller => fun _ _ => True
  | .thread k => fun sh x => (x = none → sh.slept k = []) ∧ ∀ d, x = some d → d.Slept (sh.slept k)

theorem ThreadStep.slept {k : ℕ} {sh sh' : Shared} {x x' : Option ThreadData} {act : ThreadAct}
    (h : ThreadStep k sh x act x' sh') (hx : SleptAt (.thread k) sh x) : SleptAt (.thread k) sh' x' := by
  obtain ⟨hnone,hsome⟩ := hx
  cases h with
  | refused => exact ⟨fun _ => hnone rfl,by simp⟩
  | started mutex o r =>
    refine ⟨by simp,?_⟩
    rintro d ⟨⟩
    exact hnone rfl
  | obtain d hpc ok =>
    have hslept := hsome d rfl
    simp only [ThreadData.Slept,hpc] at hslept
    refine ⟨by simp,?_⟩
    rintro d' ⟨⟩
    cases ok <;> simp [ThreadData.Slept,ThreadData.status,Shared.sleep,hslept]
  | refuse d hpc | keep d hpc =>
    refine ⟨by simp,?_⟩
    rintro d' ⟨⟩
    simp [ThreadData.Slept,ThreadData.status]
  | lock d hpc hfree =>
    have hslept := hsome d rfl
    simp only [ThreadData.Slept,hpc] at hslept
    refine ⟨by simp,?_⟩
    rintro d' ⟨⟩
    simpa [ThreadData.Slept] using hslept
  | release d hpc ok =>
    have hslept := hsome d rfl
    simp only [ThreadData.Slept,hpc] at hslept
    refine ⟨by simp,?_⟩
    rintro d' ⟨⟩
    cases ok <;> simp [ThreadData.Slept,ThreadData.status,Shared.sleep,hslept]
  | unlock d hpc hown =>
    have hslept := hsome d rfl
    simp only [ThreadData.Slept,hpc] at hslept
    refine ⟨by simp,?_⟩
    rintro d' ⟨⟩
    simpa [ThreadData.Slept,ThreadData.status] using hslept
  | finish d status hpc =>
    have hslept := hsome d rfl
    simp only [ThreadData.Slept,ThreadData.status,hpc] at hslept
    refine ⟨by simp,?_⟩
    rintro d' ⟨⟩
    simpa [ThreadData.Slept,ThreadData.status] using hslept

theorem move_slept {i : Actor} {sh sh' : Shared} {x x' : ActorState i} {a : ActorAct i}
    (h : move i sh x a = .ok (x',sh')) {k : ℕ} (hk : .thread k ≠ i) : sh'.slept k = sh.slept k := by
  cases i with
  | caller =>
    cases a with
    | lock mutex =>
      simp only [move,callerMove] at h
      split at h
      · cases h
        rfl
      · cases h
    | unlock mutex =>
      simp only [move,callerMove] at h
      split at h
      · cases h
        rfl
      · cases h
  | thread j =>
    have hkj : k ≠ j := fun hkj => hk (congrArg Actor.thread hkj)
    cases threadStep_of_move h with
    | obtain | release => simp [Shared.sleep,Function.update_of_ne hkj]
    | _ => rfl

theorem visits_slept {ls : List Label} {s : Sys} (h : Visits move idle ls s) : Everywhere SleptAt s := by
  refine h.always ?_ ?_
  · intro i
    cases i with
    | caller => trivial
    | thread k => exact ⟨fun _ => rfl,by simp [idle]⟩
  · rintro t ⟨i,a⟩ t' ht hstep
    obtain ⟨x,sh,hmove,rfl⟩ := step_ok_iff.mp hstep
    refine ht.update ?_ ?_
    · cases i with
      | caller => trivial
      | thread k => exact (threadStep_of_move hmove).slept (ht (.thread k))
    · intro j hj hslept
      cases j with
      | caller => trivial
      | thread k =>
        simpa only [SleptAt,move_slept hmove hj] using hslept

/-- What start_thread_obtaining_mutex stores is never overwritten. -/
theorem run_args {k : ℕ} {s s' : Sys} {ms : List Label} {o r : UInt32} (h : run move s ms = .ok s')
    (hs : ∃ d, s.thread k = some d ∧ d.waitToObtainMs = o ∧ d.waitToReleaseMs = r) :
    ∃ d, s'.thread k = some d ∧ d.waitToObtainMs = o ∧ d.waitToReleaseMs = r := by
  refine (Visits.of_run h).always
    (I := fun t : Sys => ∃ d, t.thread k = some d ∧ d.waitToObtainMs = o ∧ d.waitToReleaseMs = r) hs ?_
  rintro t ⟨i,a⟩ t' ht hstep
  obtain ⟨x,sh,hmove,rfl⟩ := step_ok_iff.mp hstep
  by_cases hi : .thread k = i
  · subst hi
    obtain ⟨d,hd,ho,hr⟩ := ht
    have hmove' : threadMove k t.shared (some d) a = .ok (x,sh) := hd ▸ hmove
    have hx : Sys.thread ⟨sh,Function.update t.locals (.thread k) x⟩ k = x := by simp [Sys.thread]
    rw [hx]
    cases threadStep_of_move hmove' <;> exact ⟨_,rfl,ho,hr⟩
  · have hlocal : Sys.thread ⟨sh,Function.update t.locals i x⟩ k = Sys.thread t k := by
      simp only [Sys.thread]
      exact Function.update_of_ne hi _ _
    rw [hlocal]
    exact ht

/-- A thread that reports success has waited as long as it was told exactly when both
times, in microseconds, are numbers of 32 bits; the others wrap around. -/
theorem waits_as_told_iff {ls : List Label} {s t : Sys} (h : run move idle ls = .ok s) {k m : ℕ} {o r : ℤ}
    (hstart : Takes move idle ls t ⟨.thread k,.start m o r true true⟩) {d : ThreadData}
    (hd : s.thread k = some d) (hdone : d.pc = .done) (hsuccess : d.threadCompleteSuccess = some true) :
    (s.shared.slept k).map Nat.cast = [1000 * o,1000 * r] ↔
      (0 ≤ o ∧ 1000 * o < 2^32) ∧ 0 ≤ r ∧ 1000 * r < 2^32 := by
  have hargs : d.waitToObtainMs = UInt32.ofInt o ∧ d.waitToReleaseMs = UInt32.ofInt r := by
    obtain ⟨pre,t',⟨rest,rfl⟩,hpre,hstep⟩ := hstart
    obtain ⟨u,hu,hrest⟩ := run_append.mp h
    obtain rfl := Except.ok.inj (hu.symm.trans (run_snoc.mpr ⟨t,hpre,hstep⟩))
    have hfirst : ∃ d, Sys.thread u k = some d ∧ d.waitToObtainMs = UInt32.ofInt o ∧
        d.waitToReleaseMs = UInt32.ofInt r := by
      obtain ⟨x,sh,hmove,rfl⟩ := step_ok_iff.mp hstep
      have hmove' : threadMove k t.shared (Sys.thread t k) (.start m o r true true) = .ok (x,sh) := hmove
      have hx : Sys.thread ⟨sh,Function.update t.locals (.thread k) x⟩ k = x := by simp [Sys.thread]
      rw [hx]
      generalize Sys.thread t k = y at hmove'
      cases threadStep_of_move hmove' with
      | started => exact ⟨_,rfl,rfl,rfl⟩
    obtain ⟨d',hd',ho,hr⟩ := run_args hrest hfirst
    obtain rfl := Option.some.inj (hd.symm.trans hd')
    exact ⟨ho,hr⟩
  have hslept : SleptAt (.thread k) s.shared (s.thread k) := visits_slept (Visits.of_run h) (.thread k)
  have hwaits := hslept.2 d hd
  simp only [ThreadData.Slept,ThreadData.status,hdone] at hwaits
  rw [hwaits hsuccess,hargs.1,hargs.2,← usec_exact_iff,← usec_exact_iff]
  simp

theorem endedRun_waits : ∃ s : Sys, run move idle endedRun = .ok s ∧
    (s.shared.slept 0).map Nat.cast = [(2000 : ℤ),3000] := by
  obtain ⟨s,hrun,hs⟩ := exists_of_returns
    (show returns (fun s : Sys => decide (s.thread 0 = some ⟨7,2,3,some true,.done⟩))
      (run move idle endedRun) = true by decide)
  have hstart : ∃ t : Sys, step move idle ⟨.thread 0,.start 7 2 3 true true⟩ = .ok t := ⟨_,rfl⟩
  obtain ⟨t,hstep⟩ := hstart
  have htakes : Takes move idle endedRun idle ⟨.thread 0,.start 7 2 3 true true⟩ :=
    ⟨[],t,⟨_,rfl⟩,run_nil.mpr rfl,hstep⟩
  exact ⟨s,hrun,(waits_as_told_iff hrun htakes (of_decide_eq_true hs) rfl rfl).mpr (by decide)⟩

end Aesd.Threading
