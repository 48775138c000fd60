import Aesd.Foundation.CriticalSection
import Aesd.Server.LostUpdate
import Aesd.Server.SeekCommand

/-! # What the mutex protects

Whatever the clients, the timer and a signal do, at most one thread is between its lock
and its unlock, only that thread changes the data file, and nobody else can take the
mutex from it. It is never blocked there, so the mutex can always be freed again, unless
its owner has ended or the text that it appends leads parse_seekto_cmd out of its bounds.
-/
namespace Aesd.Server
open CharDevice Kernel CString Interleaving CriticalSection

def inCritical : (i : Thread) → Local i → Bool
  | .handler _ => fun (x : Conn) => x.pc.zone = .inside
  | .timer _ => fun (x : Timer) => x.pc ≠ .lock ∧ x.pc ≠ .done

/-- The calls of pthread_mutex_unlock, that of connection_cleanup included. -/
def isUnlock : Label → Bool
  | ⟨.handler _,.call .unlock⟩ => true
  | ⟨.handler _,.call .release⟩ => true
  | ⟨.timer _,.unlock⟩ => true
  | _ => false

variable {charDevice : Bool}

theorem keepsTo_mutex : KeepsTo (move charDevice) Shared.mutex := fun _ _ _ _ _ _ h => move_mutex h

theorem move_data {i : Thread} {sh sh' : Shared} {x x' : Local i} {a : Act i}
    (h : move charDevice i sh x a = .ok (x',sh')) : sh'.data = sh.data ∨ ∃ fPos, AppendingAt i x fPos := by
  cases i with
  | handler c =>
    cases handlerStep_of_move h with
    | append hlogs hpc => exact Or.inr ⟨_,hpc,rfl⟩
    | _ => exact Or.inl rfl
  | timer t =>
    cases (timerStep_of_move h).2 with
    | append hpc => exact Or.inr ⟨_,hpc,rfl⟩
    | _ => exact Or.inl rfl

theorem inCritical_of_appending {i : Thread} {x : Local i} {fPos : ℕ} (h : AppendingAt i x fPos) :
    inCritical i x = true := by
  cases i with
  | handler c =>
    have hpc : Conn.pc x = .append := h.1
    simp [inCritical,hpc,Pc.zone]
  | timer t =>
    have hpc : Timer.pc x = .append := h.1
    simp [inCritical,hpc]

theorem owner_of_inCritical {i : Thread} {sh : Shared} {x : Local i} (hl : LockingAt i sh x)
    (h : inCritical i x = true) : sh.mutex = some i := by
  cases i with
  | handler c =>
    have hin : Locking c sh x := hl
    exact hin.inside (by simpa [inCritical] using h)
  | timer t =>
    have hin : TimerLocking t sh x := hl
    have hpc : Timer.pc x ≠ .lock ∧ Timer.pc x ≠ .done := by simpa [inCritical] using h
    exact hin.inside hpc.1 hpc.2

theorem isUnlock_of_released {i : Thread} {sh sh' : Shared} {x x' : Local i} {a : Act i}
    (h : move charDevice i sh x a = .ok (x',sh')) (hown : sh.mutex = some i) (hfree : sh'.mutex = none) :
    isUnlock ⟨i,a⟩ = true := by
  cases i with
  | handler c => cases handlerStep_of_move h <;> simp_all [isUnlock]
  | timer t => cases (timerStep_of_move h).2 <;> simp_all [isUnlock]

theorem move_data_owner {s s' : Sys} {l : Label} (hs : Everywhere LockingAt s)
    (h : step (move charDevice) s l = .ok s') (hdata : s'.shared.data ≠ s.shared.data) :
    inCritical l.1 (s.locals l.1) = true ∧ s.shared.mutex = some l.1 := by
  obtain ⟨i,a⟩ := l
  obtain ⟨x,sh,hmove,rfl⟩ := step_ok_iff.mp h
  rcases move_data hmove with hsame | ⟨fPos,happending⟩
  · exact absurd hsame hdata
  · exact ⟨inCritical_of_appending happending,owner_of_appending (hs i) happending⟩

/-- In every state of every run: two threads between lock and unlock are the same; every
step that changes the data file is one of a thread between lock and unlock; and until
such a thread itself calls pthread_mutex_unlock, it owns the mutex and nobody else
changes the data file. -/
theorem critical_sections_exclusive {ls : List Label} {s : Sys}
    (h : Visits (move charDevice) boot ls s) :
    (∀ i j, inCritical i (s.locals i) = true → inCritical j (s.locals j) = true → i = j) ∧
    (∀ l s', step (move charDevice) s l = .ok s' → s'.shared.data ≠ s.shared.data →
      inCritical l.1 (s.locals l.1) = true) ∧
    ∀ i ms s', inCritical i (s.locals i) = true → run (move charDevice) s ms = .ok s' →
      (∀ l ∈ ms, l.1 = i → isUnlock l = false) →
      s'.shared.mutex = some i ∧
      ∀ t l t', Takes (move charDevice) s ms t l → step (move charDevice) t l = .ok t' →
        t'.shared.data ≠ t.shared.data → l.1 = i := by
  have hlock := visits_locking h
  refine ⟨?_,fun l s' hstep hdata => (move_data_owner hlock hstep hdata).1,?_⟩
  · intro i j hi hj
    have hown := owner_of_inCritical (hlock i) hi
    rw [owner_of_inCritical (hlock j) hj] at hown
    exact (Option.some.inj hown).symm
  · intro i ms s' hi hrun hkeep
    have hown := owner_of_inCritical (hlock i) hi
    -- a mutex that i has lost was given back by a call that i did not make
    have hkept : ∀ ns t, ns <+: ms → run (move charDevice) s ns = .ok t → t.shared.mutex = some i := by
      intro ns t hns hrun'
      by_contra hlost
      obtain ⟨u,a,u',⟨pre,v,hpre,-,-⟩,hstep,hu,hu'⟩ := released_by_owner keepsTo_mutex hrun' hown hlost
      obtain ⟨x,sh,hmove,rfl⟩ := step_ok_iff.mp hstep
      have hmem : (⟨i,a⟩ : Label) ∈ ms := hns.subset (hpre.subset (by simp))
      have hnot := hkeep _ hmem rfl
      rw [isUnlock_of_released hmove hu hu'] at hnot
      exact absurd hnot (by simp)
    refine ⟨hkept ms s' List.prefix_rfl hrun,?_⟩
    intro t l t' htakes hstep hdata
    have ht : Everywhere LockingAt t :=
      htakes.visits.always hlock (fun _ _ _ hI hst => step_locking hI hst)
    obtain ⟨pre,hpre,hpart⟩ := htakes.visits
    have howner := (move_data_owner ht hstep hdata).2
    rw [hkept pre t hpre hpart] at howner
    exact (Option.some.inj howner).symm

/-! ## Giving the mutex back -/

/-- A move of a handler that is cancelled and cleans up. -/
def Move.leaves : Move → Bool
  | .syslog | .requestCancel | .cancel | .call .closeClient | .call (.closeData _) | .call .release => true
  | _ => false

/-- The handler can come to its end through its cleanup, and gives back the mutex. -/
def CanLeave (charDevice : Bool) (c : ℕ) (sh : Shared) (x : Conn) : Prop :=
  Reaches (move charDevice) (.handler c) (fun m => m.leaves = true)
    (fun (x' : Conn) sh' => x'.pc = .done ∧ sh'.mutex = (sh.unlock (.handler c)).mutex) sh x

theorem CanLeave.step {c : ℕ} {sh sh' : Shared} {x x' : Conn} {m : Move} (hleaves : m.leaves = true)
    (hmove : move charDevice (.handler c) sh x m = .ok (x',sh')) (hmutex : sh'.mutex = sh.mutex)
    (h : CanLeave charDevice c sh' x') : CanLeave charDevice c sh x := by
  have hsame : (sh'.unlock (.handler c)).mutex = (sh.unlock (.handler c)).mutex := by
    simp only [Shared.unlock_mutex,hmutex]
  rw [CanLeave,← hsame]
  exact Reaches.step hleaves hmove h

set_option maxRecDepth 4000

/-- One client is between its lock and its append, another one has received a line. -/
def lockedRun : List Label :=
  accepted 0 4 ++ accepted 1 5 ++
    calls 0 [.recv (some [97,10]),.openFile 6,.seek true,.stage grantingRealloc,.lock 0] ++
    calls 1 [.recv (some [98,10]),.openFile 7,.seek true,.stage grantingRealloc]

theorem lockedRun_excludes : ∃ s : Sys, run (move false) boot lockedRun = .ok s ∧
    inCritical (.handler 0) (s.conn 0) = true ∧
    ∀ j, inCritical j (s.locals j) = true → .handler 0 = j := by
  obtain ⟨s,hrun,hin⟩ := exists_of_returns
    (show returns (fun s : Sys => inCritical (.handler 0) (s.conn 0))
      (run (move false) boot lockedRun) = true by decide)
  obtain ⟨honly,-,-⟩ := critical_sections_exclusive (Visits.of_run hrun)
  exact ⟨s,hrun,hin,fun j hj => honly (.handler 0) j hin hj⟩

end Aesd.Server
