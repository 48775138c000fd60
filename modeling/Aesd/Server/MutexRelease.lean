import Aesd.Server.Steps

/-! # Who owns the mutex

A handler owns the mutex exactly between its lock and its unlock, and still while it
leaves the loop after a failed send; connection_cleanup then gives the mutex back.
-/
namespace Aesd.Server
open CharDevice Kernel CString Interleaving

inductive Zone where
  | outside
  | inside
  | leaving
  | over
  deriving DecidableEq

/-- The part of a handler's life that a call belongs to. -/
def Pc.zone : Pc → Zone
  | .append | .rewind | .read | .send | .unlock => .inside
  | .closeClient | .closeData | .release => .leaving
  | .done => .over
  | _ => .outside

structure Locking (i : ℕ) (sh : Shared) (c : Conn) : Prop where
  inside : c.pc.zone = .inside → sh.mutex = some (.handler i)
  outside : c.pc.zone = .outside → sh.mutex ≠ some (.handler i)
  rcNonneg : c.pc.zone = .inside ∨ c.pc.zone = .outside → 0 ≤ c.rc
  leaving : c.pc.zone = .leaving → c.cancelled = false → (sh.mutex = some (.handler i) ↔ c.rc < 0)

structure TimerLocking (i : ℕ) (sh : Shared) (t : Timer) : Prop where
  inside : t.pc ≠ .lock → t.pc ≠ .done → sh.mutex = some (.timer i)
  outside : t.pc = .lock ∨ t.pc = .done → sh.mutex ≠ some (.timer i)

def LockingAt : (i : Thread) → Shared → Local i → Prop
  | .handler c => Locking c
  | .timer t => TimerLocking t

variable {charDevice : Bool}

theorem HandlerStep.mutex {self : ℕ} {sh sh' : Shared} {c c' : Conn} {m : Move}
    (h : HandlerStep charDevice self sh c m c' sh') :
    sh'.mutex = sh.mutex ∨ (sh.mutex = none ∧ sh'.mutex = some (.handler self)) ∨
      (sh.mutex = some (.handler self) ∧ sh'.mutex = none) := by
  cases h with
  | lock hlogs hpc hfree => exact Or.inr (Or.inl ⟨hfree,rfl⟩)
  | unlock | release =>
    by_cases hown : sh.mutex = some (.handler self)
    · exact Or.inr (Or.inr ⟨hown,by simp [hown]⟩)
    · exact Or.inl (by simp [hown])
  | _ => exact Or.inl rfl

theorem TimerStep.mutex {self : ℕ} {sh sh' : Shared} {t t' : Timer} {k : TimerCall}
    (h : TimerStep charDevice self sh t k t' sh') :
    sh'.mutex = sh.mutex ∨ (sh.mutex = none ∧ sh'.mutex = some (.timer self)) ∨
      (sh.mutex = some (.timer self) ∧ sh'.mutex = none) := by
  cases h with
  | lock hpc hfree => exact Or.inr (Or.inl ⟨hfree,rfl⟩)
  | unlock =>
    by_cases hown : sh.mutex = some (.timer self)
    · exact Or.inr (Or.inr ⟨hown,by simp [hown]⟩)
    · exact Or.inl (by simp [hown])
  | _ => exact Or.inl rfl

/-- A move takes a free mutex, gives back its own, or leaves it alone. -/
theorem move_mutex {i : Thread} {sh sh' : Shared} {x x' : Local i} {a : Act i}
    (h : move charDevice i sh x a = .ok (x',sh')) :
    sh'.mutex = sh.mutex ∨ (sh.mutex = none ∧ sh'.mutex = some i) ∨
      (sh.mutex = some i ∧ sh'.mutex = none) := by
  cases i with
  | handler c => exact (handlerStep_of_move h).mutex
  | timer t => exact (timerStep_of_move h).2.mutex

theorem move_mutex_other {i j : Thread} {sh sh' : Shared} {x x' : Local i} {a : Act i}
    (h : move charDevice i sh x a = .ok (x',sh')) (hj : j ≠ i) :
    sh'.mutex = some j ↔ sh.mutex = some j := by
  rcases move_mutex h with hm | ⟨hm,hm'⟩ | ⟨hm,hm'⟩
  · rw [hm]
  · simp [hm,hm',hj.symm]
  · simp [hm,hm',hj.symm]

theorem Locking.keep {i : ℕ} {sh sh' : Shared} {c c' : Conn} (hl : Locking i sh c)
    (hzone : c'.pc.zone = c.pc.zone) (hmutex : sh'.mutex = sh.mutex) (hrc : c'.rc = c.rc)
    (hcancelled : c'.cancelled = c.cancelled) : Locking i sh' c' := by
  constructor
  · rw [hzone,hmutex]
    exact hl.inside
  · rw [hzone,hmutex]
    exact hl.outside
  · rw [hzone,hrc]
    exact hl.rcNonneg
  · rw [hzone,hmutex,hrc,hcancelled]
    exact hl.leaving

theorem HandlerStep.locking {self : ℕ} {sh sh' : Shared} {c c' : Conn} {m : Move}
    (h : HandlerStep charDevice self sh c m c' sh') (hl : Locking self sh c) : Locking self sh' c' := by
  cases h with
  | syslog | requestCancel => exact hl.keep rfl rfl rfl rfl
  | start hlogs hpc | recv hlogs hpc | openFailed hlogs hpc | openFile hlogs hpc | seek hlogs hpc
  | append hlogs hpc | rewind hlogs hpc | read hlogs hpc | send hlogs hpc | rest hlogs hpc
  | closeClient hlogs hpc | closeData hlogs hpc | skipData hlogs hpc =>
    exact hl.keep (by rw [hpc]; rfl) rfl rfl rfl
  | stage hlogs hpc =>
    refine hl.keep ?_ rfl rfl rfl
    rw [hpc]
    dsimp only
    split <;> rfl
  | _ =>
    -- the zone changes, or a flag that decides who owns the mutex does
    obtain ⟨hin,hout,hrc,hleave⟩ := hl
    constructor <;> simp_all [Pc.zone,Conn.fresh]

theorem TimerStep.locking {self : ℕ} {sh sh' : Shared} {t t' : Timer} {k : TimerCall}
    (h : TimerStep charDevice self sh t k t' sh') (hl : TimerLocking self sh t) :
    TimerLocking self sh' t' := by
  obtain ⟨hin,hout⟩ := hl
  cases h <;> constructor <;> simp_all

/-- The property of a thread speaks of the mutex only through its own ownership. -/
theorem LockingAt.congr {i : Thread} {sh sh' : Shared} {x : Local i} (hl : LockingAt i sh x)
    (h : sh'.mutex = some i ↔ sh.mutex = some i) : LockingAt i sh' x := by
  cases i with
  | handler c =>
    obtain ⟨hin,hout,hrc,hleave⟩ : Locking c sh x := hl
    exact ⟨fun hz => h.mpr (hin hz),fun hz => mt h.mp (hout hz),hrc,
      fun hz hc => h.trans (hleave hz hc)⟩
  | timer t =>
    obtain ⟨hin,hout⟩ : TimerLocking t sh x := hl
    exact ⟨fun h₁ h₂ => h.mpr (hin h₁ h₂),fun h₁ => mt h.mp (hout h₁)⟩

theorem step_locking {s s' : Sys} {l : Label} (hs : Everywhere LockingAt s)
    (h : step (move charDevice) s l = .ok s') : Everywhere LockingAt s' := by
  obtain ⟨i,a⟩ := l
  obtain ⟨x,sh,hmove,rfl⟩ := step_ok_iff.mp h
  refine hs.update ?_ (fun j hj hl => hl.congr (move_mutex_other hmove hj))
  cases i with
  | handler c => exact (handlerStep_of_move hmove).locking (hs (.handler c))
  | timer t => exact (timerStep_of_move hmove).2.locking (hs (.timer t))

theorem boot_locking : Everywhere LockingAt boot := by
  intro i
  cases i <;> constructor <;> simp [boot,Conn.fresh,Pc.zone]

theorem visits_locking {ls : List Label} {s : Sys} (h : Visits (move charDevice) boot ls s) :
    Everywhere LockingAt s := h.always boot_locking (fun _ _ _ hs hstep => step_locking hs hstep)

/-- No handler has ended as the owner of the mutex. -/
def Released (s : Sys) : Prop := ∀ c, (s.conn c).pc = .done → s.shared.mutex ≠ some (.handler c)

theorem boot_released : Released boot := by
  intro c _
  simp [boot]

/-- A step in which a handler acts on a cancellation request inside the cleanup that
pthread_cleanup_pop runs, although it left its loop because a send had failed. -/
def LeavesMutex (s : Sys) (l : Label) : Prop :=
  ∃ c, l = ⟨.handler c,.cancel⟩ ∧ (s.conn c).inCleanup = true ∧ (s.conn c).rc < 0

theorem Conn.leaving_of_inCleanup {c : Conn} (h : c.inCleanup = true) : c.pc.zone = .leaving := by
  simp only [Conn.inCleanup,List.mem_cons,List.not_mem_nil,or_false,decide_eq_true_eq] at h
  rcases h with ⟨h,-⟩ | h | h <;> simp [h,Pc.zone]

theorem HandlerStep.released {self : ℕ} {sh sh' : Shared} {c c' : Conn} {m : Move}
    (h : HandlerStep charDevice self sh c m c' sh') (hl : Locking self sh c)
    (hdone : c.pc = .done → sh.mutex ≠ some (.handler self))
    (hguard : m = .cancel → c.inCleanup = true → 0 ≤ c.rc) :
    c'.pc = .done → sh'.mutex ≠ some (.handler self) := by
  cases h with
  | cancelInCleanup hreq hnot hpoint hin =>
    intro _ hown
    have hrc := (hl.leaving (Conn.leaving_of_inCleanup hin) hnot).mp hown
    exact absurd (hguard rfl hin) (not_le.mpr hrc)
  | release => simp
  | stage => simp only; split <;> simp
  | syslog | requestCancel => exact hdone
  | _ => simp

theorem step_released {s s' : Sys} {l : Label} (hs : Everywhere LockingAt s) (hr : Released s)
    (hguard : ¬ LeavesMutex s l) (h : step (move charDevice) s l = .ok s') : Released s' := by
  obtain ⟨i,a⟩ := l
  obtain ⟨x,sh,hmove,rfl⟩ := step_ok_iff.mp h
  intro c hdone
  by_cases hi : i = .handler c
  · subst hi
    simp only [Sys.conn,Function.update_self] at hdone
    refine (handlerStep_of_move hmove).released (hs (.handler c)) (hr c) ?_ hdone
    rintro rfl hin
    by_contra hrc
    exact hguard ⟨c,rfl,hin,not_le.mp hrc⟩
  · have hne : Thread.handler c ≠ i := fun h => hi h.symm
    simp only [Sys.conn,Function.update_of_ne hne] at hdone
    exact mt (move_mutex_other hmove hne).mp (hr c hdone)

/-- In a run no handler ends as the owner of the mutex, and no step releases the mutex
of another thread, exactly when no handler whose send failed acts on a cancellation
request inside the cleanup that it then runs itself. -/
theorem mutex_released_iff (charDevice : Bool) (ls : List Label) :
    ((∀ s, Visits (move charDevice) boot ls s → Released s) ∧
      ∀ s l s' j, Takes (move charDevice) boot ls s l → step (move charDevice) s l = .ok s' →
        s.shared.mutex = some j → s'.shared.mutex ≠ some j → l.1 = j) ↔
    ∀ s l, Takes (move charDevice) boot ls s l → ¬ LeavesMutex s l := by
  constructor
  · rintro ⟨hreleased,-⟩ s l htakes ⟨c,rfl,hin,hrc⟩
    obtain ⟨s',hstep,hvisits⟩ := htakes.next
    have hlock : Locking c s.shared (Sys.conn s c) := visits_locking htakes.visits (.handler c)
    obtain ⟨x,sh,hmove,rfl⟩ := step_ok_iff.mp hstep
    cases handlerStep_of_move hmove with
    | cancel hreq hnot hpoint hout => exact absurd hin (Bool.eq_false_iff.mp hout)
    | cancelInCleanup hreq hnot hpoint hin' =>
      have hown := (hlock.leaving (Conn.leaving_of_inCleanup hin) hnot).mpr hrc
      exact hreleased _ hvisits c (by simp [Sys.conn]) hown
  · intro hguard
    refine ⟨fun s hvisits => ?_,?_⟩
    · have hboth := hvisits.invariant (I := fun s => Everywhere LockingAt s ∧ Released s)
        (G := fun s l => ¬ LeavesMutex s l) ⟨boot_locking,boot_released⟩
        (fun t l t' hI hG hstep => ⟨step_locking hI.1 hstep,step_released hI.1 hI.2 hG hstep⟩) hguard
      exact hboth.2
    · intro s l s' j _ hstep hown hlost
      obtain ⟨i,a⟩ := l
      obtain ⟨x,sh,hmove,rfl⟩ := step_ok_iff.mp hstep
      by_contra hne
      exact hlost ((move_mutex_other hmove (Ne.symm hne)).mpr hown)

set_option maxRecDepth 4000

/-- One client: its send fails, a cancellation request arrives, and the handler acts
on it when connection_cleanup closes the socket. -/
def failedSendRun : List Label :=
  accepted 0 4 ++ calls 0 [.recv (some [97,10]),.openFile 5,.seek true,.stage grantingRealloc,.lock 0,
    .append grantingAppend,.rewind true,.read grantingRead,.send (-1)] ++
  [⟨.handler 0,.syslog⟩,⟨.handler 0,.requestCancel⟩,⟨.handler 0,.cancel⟩]

theorem failedSendRun_keeps_mutex :
    ¬ ∀ s, Visits (move true) boot failedSendRun s → Released s := by
  intro h
  obtain ⟨s,hrun,hend⟩ := exists_of_returns
    (show returns (fun s : Sys => (s.conn 0).pc = .done ∧ s.shared.mutex = some (.handler 0))
      (run (move true) boot failedSendRun) = true by decide)
  obtain ⟨hdone,hown⟩ := of_decide_eq_true hend
  exact h s (Visits.of_run hrun) 0 hdone hown

end Aesd.Server
