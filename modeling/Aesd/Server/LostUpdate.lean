import Aesd.Server.MutexRelease

/-! # Appends to the regular file

Without the char device a handler moves its descriptor to the end of the file before
it asks for the mutex, so its write goes to where the file ended at that time. The
timer thread seeks while it holds the mutex.
-/
namespace Aesd.Server
open CharDevice Kernel CString Interleaving

/-- The bytes that an event added to the data file. -/
def Event.added : Event → List UInt8
  | .appended _ _ accepted => accepted
  | _ => []

def appendedBytes (log : List Event) : List UInt8 := log.flatMap Event.added

/-- The events after the last seek of a thread, the newest first. -/
def sinceSeek (i : Thread) (log : List Event) : List Event :=
  log.reverse.takeWhile (fun e => e ≠ .sought i)

/-- How many bytes were appended, by anyone, since a thread moved to the end of the file. -/
def addedSinceSeek (i : Thread) (log : List Event) : ℕ :=
  ((sinceSeek i log).map (fun e => e.added.length)).sum

theorem appendedBytes_snoc (log : List Event) (e : Event) :
    appendedBytes (log ++ [e]) = appendedBytes log ++ e.added := by simp [appendedBytes]

theorem addedSinceSeek_snoc (i : Thread) (log : List Event) (e : Event) :
    addedSinceSeek i (log ++ [e]) =
      if e = .sought i then 0 else e.added.length + addedSinceSeek i log := by
  simp only [addedSinceSeek,sinceSeek,List.reverse_append,List.reverse_singleton,List.singleton_append,
    List.takeWhile_cons]
  split_ifs with h₁ h₂ h₃ <;> simp_all

/-- The data file holds the appended bytes, one after the other. -/
def FileIsAppends (s : Sys) : Prop := s.shared.data.file = appendedBytes s.shared.log

/-- Between its seek and its append the offset of a thread is where the appends ended
at the time of the seek. -/
def Positioned (i : Thread) (sh : Shared) (fPos : ℕ) : Prop :=
  fPos + addedSinceSeek i sh.log = (appendedBytes sh.log).length

def PositionedAt : (i : Thread) → Shared → Local i → Prop
  | .handler c => fun sh (x : Conn) =>
    x.pc = .stage ∨ x.pc = .lock ∨ x.pc = .append → Positioned (.handler c) sh x.fPos
  | .timer t => fun sh (x : Timer) => x.pc = .append → Positioned (.timer t) sh x.fPos

theorem length_writeAt_lt {file bytes : List UInt8} {pos : ℕ} (hpos : pos < file.length)
    (hbytes : bytes ≠ []) : (writeAt file pos bytes).length < file.length + bytes.length := by
  have := List.length_pos_iff.mpr hbytes
  simp only [writeAt,hbytes,if_false,List.length_append,List.length_take,List.length_replicate,
    List.length_drop]
  omega

theorem writeAt_end (file bytes : List UInt8) : writeAt file file.length bytes = file ++ bytes := by
  by_cases h : bytes = [] <;> simp [writeAt,h]

theorem appendDatafile_plain {env : AppendEnv} {d : DataFile} {fd size : ℤ} {fPos : ℕ}
    {buf : List UInt8} {r : AppendResult} (h : appendDatafile false env d fd fPos buf size = .ok r) :
    r.data.file = writeAt d.file fPos r.accepted := by
  simp only [appendDatafile,Bool.false_eq_true,if_false,Except.ok.injEq] at h
  subst h
  unfold writeFile
  split <;> simp [writeAt]

theorem adjust_end_plain {ok : Bool} {d : DataFile} {fd rc : ℤ} {fPos pos : ℕ}
    (h : adjustDatafilePos false ok d fd fPos 0 .fromEnd = (rc,pos)) (hrc : -1 < rc) :
    pos = d.file.length := by
  simp only [adjustDatafilePos,Bool.false_eq_true,if_false] at h
  split at h <;> simp only [Prod.mk.injEq] at h <;> omega

def AppendingAt : (i : Thread) → Local i → ℕ → Prop
  | .handler _ => fun (x : Conn) fPos => x.pc = .append ∧ x.fPos = fPos
  | .timer _ => fun (x : Timer) fPos => x.pc = .append ∧ x.fPos = fPos

theorem move_file {i : Thread} {sh sh' : Shared} {x x' : Local i} {a : Act i}
    (h : move false i sh x a = .ok (x',sh')) :
    (sh'.data = sh.data ∧ appendedBytes sh'.log = appendedBytes sh.log) ∨
    ∃ fPos payload accepted, AppendingAt i x fPos ∧
      sh'.log = sh.log ++ [.appended i payload accepted] ∧
      sh'.data.file = writeAt sh.data.file fPos accepted := by
  cases i with
  | handler c =>
    cases handlerStep_of_move h with
    | append hlogs hpc hpayload happend =>
      exact Or.inr ⟨_,_,_,⟨hpc,rfl⟩,rfl,appendDatafile_plain happend⟩
    | _ => exact Or.inl ⟨rfl,by simp [appendedBytes,Event.added]⟩
  | timer t =>
    cases (timerStep_of_move h).2 with
    | append hpc hpayload happend =>
      exact Or.inr ⟨_,_,_,⟨hpc,rfl⟩,rfl,appendDatafile_plain happend⟩
    | _ => exact Or.inl ⟨rfl,by simp [appendedBytes,Event.added]⟩

/-- Appends by others move the end of the file and the count since the seek alike. -/
theorem Positioned.log {i j : Thread} {sh sh' : Shared} {fPos : ℕ} (h : Positioned j sh fPos)
    (hlog : sh'.log = sh.log ∨ ∃ e, sh'.log = sh.log ++ [e] ∧ e.thread = i) (hj : j ≠ i) :
    Positioned j sh' fPos := by
  unfold Positioned at h ⊢
  rcases hlog with hlog | ⟨e,hlog,hthread⟩
  · rwa [hlog]
  · have he : e ≠ .sought j := by
      rintro rfl
      exact hj hthread
    rw [hlog,addedSinceSeek_snoc,if_neg he,appendedBytes_snoc,List.length_append]
    omega

theorem positioned_sought {i : Thread} {sh : Shared} (h : sh.data.file = appendedBytes sh.log) :
    Positioned i (sh.record (.sought i)) sh.data.file.length := by
  unfold Positioned
  rw [Shared.record_log,addedSinceSeek_snoc,if_pos rfl,appendedBytes_snoc,h]
  simp [Event.added]

theorem step_positioned {s s' : Sys} {l : Label} (hs : Everywhere PositionedAt s)
    (hfile : FileIsAppends s) (h : step (move false) s l = .ok s') : Everywhere PositionedAt s' := by
  obtain ⟨i,a⟩ := l
  obtain ⟨x,sh,hmove,rfl⟩ := step_ok_iff.mp h
  refine hs.update ?_ ?_
  · cases i with
    | handler c =>
      have hc : PositionedAt (.handler c) s.shared (s.locals (.handler c)) := hs (.handler c)
      generalize hy : s.locals (.handler c) = y at hmove hc
      cases handlerStep_of_move hmove with
      | seek hlogs hpc hadjust hrc =>
        intro _
        obtain rfl := adjust_end_plain hadjust hrc
        exact positioned_sought hfile
      | stage hlogs hpc happend => exact fun _ => hc (Or.inl hpc)
      | lock hlogs hpc hfree => exact fun _ => hc (Or.inr (Or.inl hpc))
      | syslog | requestCancel => exact hc
      | _ => exact fun hpc => by simp at hpc
    | timer t =>
      have ht : PositionedAt (.timer t) s.shared (s.locals (.timer t)) := hs (.timer t)
      generalize hy : s.locals (.timer t) = y at hmove ht
      cases (timerStep_of_move hmove).2 with
      | seek hpc hadjust hrc =>
        intro _
        obtain rfl := adjust_end_plain hadjust hrc
        exact positioned_sought hfile
      | _ => exact fun hpc => by simp at hpc
  · intro j hj hP
    cases j with
    | handler c => exact fun hpc => (hP hpc).log (move_log hmove) hj
    | timer t => exact fun hpc => (hP hpc).log (move_log hmove) hj

theorem positioned_of_appending {i : Thread} {sh : Shared} {x : Local i} {fPos : ℕ}
    (hP : PositionedAt i sh x) (ha : AppendingAt i x fPos) : Positioned i sh fPos := by
  cases i with
  | handler c =>
    obtain ⟨hpc,rfl⟩ := ha
    exact hP (Or.inr (Or.inr hpc))
  | timer t =>
    obtain ⟨hpc,rfl⟩ := ha
    exact hP hpc

theorem boot_positioned : Everywhere PositionedAt boot := by
  intro i
  cases i <;> simp [PositionedAt,boot,Conn.fresh]

theorem boot_fileIsAppends : FileIsAppends boot := rfl

/-- A step that adds bytes adds them at the end exactly when nothing was appended
since the seek of the thread. -/
theorem step_fileIsAppends_iff {s s' : Sys} {l : Label} (hs : Everywhere PositionedAt s)
    (hfile : FileIsAppends s) (h : step (move false) s l = .ok s') :
    FileIsAppends s' ↔
      (appendedBytes s'.shared.log ≠ appendedBytes s.shared.log → addedSinceSeek l.1 s.shared.log = 0) := by
  obtain ⟨i,a⟩ := l
  obtain ⟨x,sh,hmove,rfl⟩ := step_ok_iff.mp h
  unfold FileIsAppends at hfile ⊢
  rcases move_file hmove with ⟨hdata,hlog⟩ | ⟨fPos,payload,accepted,happending,hlog,hwrite⟩
  · simp [hdata,hlog,hfile]
  · have hpos := positioned_of_appending (hs i) happending
    unfold Positioned at hpos
    simp only [hwrite,hlog,appendedBytes_snoc,Event.added,ne_eq,List.append_right_eq_self]
    rw [← hfile] at hpos ⊢
    constructor
    · intro happ hne
      by_contra hadded
      have hlt := @length_writeAt_lt s.shared.data.file _ fPos (by omega) hne
      rw [happ,List.length_append] at hlt
      omega
    · intro hadded
      by_cases hne : accepted = []
      · simp [writeAt,hne]
      · obtain rfl : fPos = s.shared.data.file.length := by
          have := hadded hne
          omega
        apply writeAt_end

theorem owner_of_appending {i : Thread} {sh : Shared} {x : Local i} {fPos : ℕ}
    (hl : LockingAt i sh x) (ha : AppendingAt i x fPos) : sh.mutex = some i := by
  cases i with
  | handler c =>
    obtain ⟨hin,-,-,-⟩ : Locking c sh x := hl
    exact hin (by rw [ha.1]; rfl)
  | timer t =>
    obtain ⟨hin,-⟩ : TimerLocking t sh x := hl
    exact hin (by simp [ha.1]) (by simp [ha.1])

/-- In a run the data file always consists of the appended bytes, in the order in
which their threads held the mutex, exactly when no thread adds bytes after others
have been appended since it moved its descriptor to the end of the file. -/
theorem file_is_appends_iff (ls : List Label) :
    ((∀ s, Visits (move false) boot ls s → FileIsAppends s) ∧
      ∀ s l s', Takes (move false) boot ls s l → step (move false) s l = .ok s' →
        appendedBytes s'.shared.log ≠ appendedBytes s.shared.log → s.shared.mutex = some l.1) ↔
    ∀ s l s', Takes (move false) boot ls s l → step (move false) s l = .ok s' →
      appendedBytes s'.shared.log ≠ appendedBytes s.shared.log →
        addedSinceSeek l.1 s.shared.log = 0 := by
  constructor
  · rintro ⟨hfile,-⟩ s l s' htakes hstep
    have hpos : Everywhere PositionedAt s := htakes.visits.invariant (G := fun t _ => FileIsAppends t)
      boot_positioned (fun t l t' hP hF h => step_positioned hP hF h)
      (fun t l ht => hfile t ht.visits)
    obtain ⟨s₁,hstep₁,hvisits⟩ := htakes.next
    obtain rfl : s' = s₁ := Except.ok.inj (hstep.symm.trans hstep₁)
    exact (step_fileIsAppends_iff hpos (hfile s htakes.visits) hstep).mp (hfile s' hvisits)
  · intro hcond
    refine ⟨fun s hvisits => ?_,?_⟩
    · have hboth := hvisits.invariant (I := fun t => Everywhere PositionedAt t ∧ FileIsAppends t)
        (G := fun t l => ∀ t', step (move false) t l = .ok t' →
          appendedBytes t'.shared.log ≠ appendedBytes t.shared.log → addedSinceSeek l.1 t.shared.log = 0)
        ⟨boot_positioned,boot_fileIsAppends⟩
        (fun t l t' hI hG h => ⟨step_positioned hI.1 hI.2 h,
          (step_fileIsAppends_iff hI.1 hI.2 h).mpr (hG t' h)⟩)
        (fun t l ht t' h => hcond t l t' ht h)
      exact hboth.2
    · intro s l s' htakes hstep hadds
      obtain ⟨i,a⟩ := l
      obtain ⟨x,sh,hmove,rfl⟩ := step_ok_iff.mp hstep
      rcases move_file hmove with ⟨-,hlog⟩ | ⟨fPos,payload,accepted,happending,-,-⟩
      · exact absurd hlog hadds
      · exact owner_of_appending (visits_locking htakes.visits i) happending

set_option maxRecDepth 4000

/-- Two clients that have both moved to the end of the empty file before the first of
them appends. -/
def overlappingRun : List Label :=
  accepted 0 4 ++ accepted 1 5 ++
  calls 0 [.recv (some [97,10]),.openFile 6,.seek true,.stage grantingRealloc] ++
  calls 1 [.recv (some [98,10]),.openFile 7,.seek true,.stage grantingRealloc] ++
  calls 0 [.lock 0,.append grantingAppend,.rewind true,.read grantingRead,.send 2,.read grantingRead,
    .unlock] ++
  calls 1 [.lock 0,.append grantingAppend]

theorem overlappingRun_loses_line :
    ∃ s : Sys, run (move false) boot overlappingRun = .ok s ∧ s.shared.data.file = [98,10] ∧
      appendedBytes s.shared.log = [97,10,98,10] ∧ ¬ FileIsAppends s := by
  obtain ⟨s,hrun,hend⟩ := exists_of_returns
    (show returns (fun s : Sys => s.shared.data.file = [98,10] ∧
      appendedBytes s.shared.log = [97,10,98,10]) (run (move false) boot overlappingRun) = true by
        decide)
  obtain ⟨hfile,hlog⟩ := of_decide_eq_true hend
  exact ⟨s,hrun,hfile,hlog,by simp [FileIsAppends,hfile,hlog]⟩

end Aesd.Server
