import Aesd.Server.Steps

/-! # The descriptors of a connection

Every chunk opens the data file anew, and the record of the connection remembers only
the last descriptor, from when open_datafile has returned. connection_cleanup closes the
socket and that descriptor, unless its number is zero; a failed pthread_create closes
nothing.
-/
namespace Aesd.Server
open CharDevice Kernel CString Interleaving

def opens (i : Thread) (log : List Event) : List ℤ :=
  log.filterMap (fun | .opened j fd => if j = i then some fd else none | _ => none)

def closes (i : Thread) (log : List Event) : List ℤ :=
  log.filterMap (fun | .closed j fd => if j = i then some fd else none | _ => none)

/-- The data-file descriptors that were opened for a connection. -/
def dataFds (c : ℕ) (log : List Event) : List ℤ := (opens (.handler c) log).filter (fun fd => 0 ≤ fd)

def openDataFds (c : ℕ) (log : List Event) : List ℤ :=
  (dataFds c log).filter (fun fd => fd ∉ closes (.handler c) log)

def toClose (clientFd dataFd : ℤ) : List ℤ := clientFd :: if 0 < dataFd then [dataFd] else []

/-- The descriptor is what the last open_datafile gave. -/
def LastOpened (i : ℕ) (log : List Event) (dataFd : ℤ) : Prop :=
  dataFd = (opens (.handler i) log).getLastD 0

/-- The remembered descriptor was opened for the connection, and all numbers are different. -/
structure Remembered (i : ℕ) (log : List Event) (clientFd dataFd : ℤ) : Prop where
  opened : 0 < dataFd → dataFd ∈ dataFds i log
  distinct : (clientFd :: dataFds i log).Nodup

/-- Nothing is closed while a connection is served. -/
structure Serving (i : ℕ) (sh : Shared) (clientFd dataFd : ℤ) : Prop where
  remembered : Remembered i sh.log clientFd dataFd
  closed : closes (.handler i) sh.log = []
  owned : ∀ fd ∈ clientFd :: dataFds i sh.log, sh.fds fd = some (.handler i)

/-- Descriptors of a connection at each point of its life. A thread that is cancelled inside
open_datafile still remembers the one before. -/
def Descriptors (i : ℕ) (sh : Shared) (c : Conn) : Prop :=
  match c.pc with
  | .idle | .refused =>
    opens (.handler i) sh.log = [] ∧ closes (.handler i) sh.log = [] ∧ c.logs = 0
  | .seek =>
    Serving i sh c.clientFd c.argsDataFd ∧ LastOpened i sh.log c.dataFd ∧
      (c.logs = 0 → c.argsDataFd = c.dataFd)
  | .closeClient =>
    Serving i sh c.clientFd c.argsDataFd ∧ (c.cancelled = false → LastOpened i sh.log c.argsDataFd)
  | .closeData =>
    Remembered i sh.log c.clientFd c.argsDataFd ∧ closes (.handler i) sh.log = [c.clientFd] ∧
      (∀ fd ∈ dataFds i sh.log, sh.fds fd = some (.handler i)) ∧
      (c.cancelled = false → LastOpened i sh.log c.argsDataFd)
  | .release =>
    Remembered i sh.log c.clientFd c.argsDataFd ∧
      closes (.handler i) sh.log = toClose c.clientFd c.argsDataFd ∧
      (c.cancelled = false → LastOpened i sh.log c.argsDataFd)
  | .done =>
    c.logs = 0 ∧ (c.cancelled = false → Remembered i sh.log c.clientFd c.argsDataFd ∧
      closes (.handler i) sh.log = toClose c.clientFd c.argsDataFd ∧
      LastOpened i sh.log c.argsDataFd)
  | _ => Serving i sh c.clientFd c.argsDataFd ∧ LastOpened i sh.log c.argsDataFd

/-- A timer thread owns the descriptor that it is going to close. -/
def TimerDescriptors (i : ℕ) (sh : Shared) (t : Timer) : Prop :=
  t.pc = .seek ∨ t.pc = .append ∨ t.pc = .close → 0 ≤ t.fd → sh.fds t.fd = some (.timer i)

def DescriptorsAt : (i : Thread) → Shared → Local i → Prop
  | .handler c => Descriptors c
  | .timer t => TimerDescriptors t

variable {charDevice : Bool}

theorem LastOpened.mem_dataFds {i : ℕ} {log : List Event} {dataFd : ℤ}
    (hlast : LastOpened i log dataFd) (hpos : 0 < dataFd) : dataFd ∈ dataFds i log := by
  rw [dataFds,List.mem_filter]
  refine ⟨?_,by simpa using hpos.le⟩
  unfold LastOpened at hlast
  cases hl : (opens (.handler i) log) using List.reverseRecOn with
  | nil =>
    simp only [hl,List.getLastD_nil] at hlast
    omega
  | append_singleton xs x =>
    rw [hl,List.getLastD_concat] at hlast
    simp [hlast]

theorem Serving.openFile {i : ℕ} {sh : Shared} {clientFd dataFd fd : ℤ}
    (h : Serving i sh clientFd dataFd) (hfd : 0 ≤ fd) (hfree : sh.fds fd = none) :
    Serving i ((sh.record (.opened (.handler i) fd)).claim fd (.handler i)) clientFd fd ∧
      LastOpened i (sh.log ++ [.opened (.handler i) fd]) fd := by
  have hopens : opens (.handler i) (sh.log ++ [.opened (.handler i) fd]) =
      opens (.handler i) sh.log ++ [fd] := by simp [opens]
  have hdata : dataFds i (sh.log ++ [.opened (.handler i) fd]) = dataFds i sh.log ++ [fd] := by
    simp [dataFds,hopens,hfd]
  have hnew : fd ∉ clientFd :: dataFds i sh.log := by
    intro hmem
    simp [h.owned fd hmem] at hfree
  refine ⟨⟨⟨?_,?_⟩,?_,?_⟩,?_⟩
  · simp [hdata]
  · have hperm := List.perm_append_singleton fd (clientFd :: dataFds i sh.log)
    simp only [Shared.claim_log,Shared.record_log,hdata,← List.cons_append]
    exact hperm.nodup_iff.mpr (List.nodup_cons.mpr ⟨hnew,h.remembered.distinct⟩)
  · simpa [closes] using h.closed
  · intro x hx
    simp only [Shared.claim_log,Shared.record_log,hdata] at hx
    by_cases hxf : x = fd
    · simp [hxf]
    · rw [Shared.claim_fds,Function.update_of_ne hxf]
      exact h.owned x (by simpa [hxf] using hx)
  · simp [LastOpened,hopens]

theorem Serving.openFailed {i : ℕ} {sh : Shared} {clientFd dataFd fd : ℤ}
    (h : Serving i sh clientFd dataFd) (hfd : fd < 0) :
    Serving i (sh.record (.opened (.handler i) fd)) clientFd dataFd ∧
      LastOpened i (sh.log ++ [.opened (.handler i) fd]) fd := by
  have hopens : opens (.handler i) (sh.log ++ [.opened (.handler i) fd]) =
      opens (.handler i) sh.log ++ [fd] := by simp [opens]
  have hdata : dataFds i (sh.log ++ [.opened (.handler i) fd]) = dataFds i sh.log := by
    simp [dataFds,hopens,hfd]
  refine ⟨⟨⟨?_,?_⟩,?_,?_⟩,by simp [LastOpened,hopens]⟩
  · simpa only [Shared.record_log,hdata] using h.remembered.opened
  · simpa only [Shared.record_log,hdata] using h.remembered.distinct
  · simpa [closes] using h.closed
  · simpa only [Shared.record_log,Shared.record_fds,hdata] using h.owned

/-- When open_datafile returns a failure, the record forgets the descriptor before. -/
theorem Serving.forget {i : ℕ} {sh : Shared} {clientFd dataFd fd : ℤ}
    (h : Serving i sh clientFd dataFd) (hlast : LastOpened i sh.log fd) : Serving i sh clientFd fd :=
  ⟨⟨hlast.mem_dataFds,h.remembered.distinct⟩,h.closed,h.owned⟩

/-- Nothing happens to the descriptors of the thread i. -/
structure Keeps (i : Thread) (sh sh' : Shared) : Prop where
  opensEq : opens i sh'.log = opens i sh.log
  closesEq : closes i sh'.log = closes i sh.log
  owned : ∀ fd, sh.fds fd = some i → sh'.fds fd = some i

theorem Descriptors.keep {i : ℕ} {sh sh' : Shared} {c : Conn} (hd : Descriptors i sh c)
    (hk : Keeps (.handler i) sh sh') : Descriptors i sh' c := by
  have hdata : dataFds i sh'.log = dataFds i sh.log := by rw [dataFds,hk.opensEq,dataFds]
  have hrem : ∀ {a b : ℤ}, Remembered i sh.log a b → Remembered i sh'.log a b := fun h =>
    ⟨by rw [hdata]; exact h.opened,by rw [hdata]; exact h.distinct⟩
  have hlast : ∀ {a : ℤ}, LastOpened i sh'.log a ↔ LastOpened i sh.log a := by
    simp [LastOpened,hk.opensEq]
  have hserve : ∀ {a b : ℤ}, Serving i sh a b → Serving i sh' a b := fun h =>
    ⟨hrem h.remembered,hk.closesEq.trans h.closed,
      fun fd hfd => hk.owned fd (h.owned fd (by rwa [hdata] at hfd))⟩
  unfold Descriptors at hd ⊢
  cases hpc : c.pc <;> simp only [hpc] at hd ⊢
  case idle | refused => rwa [hk.opensEq,hk.closesEq]
  case closeData =>
    rw [hk.closesEq,hdata,hlast]
    exact ⟨hrem hd.1,hd.2.1,fun fd hfd => hk.owned fd (hd.2.2.1 fd hfd),hd.2.2.2⟩
  case release =>
    rw [hk.closesEq,hlast]
    exact ⟨hrem hd.1,hd.2⟩
  case done =>
    rw [hk.closesEq,hlast]
    exact ⟨hd.1,fun hc => ⟨hrem (hd.2 hc).1,(hd.2 hc).2⟩⟩
  all_goals
    rw [hlast]
    exact ⟨hserve hd.1,hd.2⟩

@[simp] theorem dataFds_closed (i : ℕ) (j : Thread) (log : List Event) (fd : ℤ) :
    dataFds i (log ++ [.closed j fd]) = dataFds i log := by
  simp [dataFds,opens]

@[simp] theorem LastOpened.closed {i : ℕ} {j : Thread} {log : List Event} {fd dataFd : ℤ} :
    LastOpened i (log ++ [.closed j fd]) dataFd ↔ LastOpened i log dataFd := by
  simp [LastOpened,opens]

theorem HandlerStep.descriptors {self : ℕ} {sh sh' : Shared} {c c' : Conn} {m : Move}
    (h : HandlerStep charDevice self sh c m c' sh') (hd : Descriptors self sh c) :
    Descriptors self sh' c' := by
  cases h with
  | accept hpc hfd hfree =>
    simp only [Descriptors,hpc,Conn.fresh] at hd ⊢
    refine ⟨⟨⟨by simp,by simp [dataFds,hd.1]⟩,hd.2.1,?_⟩,by simp [LastOpened,hd.1]⟩
    simp [dataFds,hd.1]
  | refuse hpc hfd hfree =>
    simp only [Descriptors,hpc,Conn.fresh] at hd ⊢
    exact ⟨hd.1,hd.2.1,trivial⟩
  | syslog hlogs =>
    by_cases hpc : c.pc = .seek
    · simp only [Descriptors,hpc,if_true] at hd ⊢
      exact ⟨hd.1.forget hd.2.1,hd.2.1,fun _ => trivial⟩
    · simp only [if_neg hpc]
      cases hpc' : c.pc <;> simp_all [Descriptors]
  | requestCancel hidle hrefused => simpa [Descriptors] using hd
  | cancelInCleanup hreq hnot hpoint hin => simp [Descriptors]
  | cancel hreq hnot hpoint hin hbefore =>
    cases hpc : c.pc <;> simp_all [Descriptors,Conn.inCleanup,Conn.atCancellationPoint]
  | stage hlogs hpc happend =>
    simp only [Descriptors,hpc] at hd
    cases hn : c.hasNl <;> simpa [Descriptors,hn] using hd
  | openFailed hlogs hpc hfd =>
    simp only [Descriptors,hpc] at hd ⊢
    have ⟨hserving,hlast⟩ := hd.1.openFailed hfd
    exact ⟨hserving,hlast,by simp⟩
  | openFile hlogs hpc hfd hfree =>
    simp only [Descriptors,hpc] at hd ⊢
    have ⟨hserving,hlast⟩ := hd.1.openFile hfd hfree
    exact ⟨hserving,hlast,fun _ => trivial⟩
  | closeClient hlogs hpc =>
    simp only [Descriptors,hpc] at hd ⊢
    obtain ⟨⟨⟨hopened,hdistinct⟩,hclosed,howned⟩,hlast⟩ := hd
    simp only [Shared.close_log,dataFds_closed,LastOpened.closed]
    refine ⟨⟨by simpa using hopened,by simpa using hdistinct⟩,by simpa [closes] using hclosed,?_,hlast⟩
    intro fd hfd
    have hne : fd ≠ c.clientFd := ne_of_mem_of_not_mem hfd (List.nodup_cons.mp hdistinct).1
    simpa [Function.update_of_ne hne] using howned fd (List.mem_cons_of_mem _ hfd)
  | closeData hlogs hpc hfd =>
    simp only [Descriptors,hpc] at hd ⊢
    obtain ⟨⟨hopened,hdistinct⟩,hclosed,-,hlast⟩ := hd
    simp only [Shared.close_log,LastOpened.closed]
    refine ⟨⟨by simpa using hopened,by simpa using hdistinct⟩,?_,hlast⟩
    simp only [closes] at hclosed
    simp [closes,toClose,hfd,hclosed]
  | skipData hlogs hpc hfd =>
    simp only [Descriptors,hpc] at hd ⊢
    exact ⟨hd.1,by rw [hd.2.1,toClose,if_neg (not_lt.mpr hfd)],hd.2.2.2⟩
  | release hlogs hpc => simp_all [Descriptors]
  | seek hlogs hpc =>
    refine @Descriptors.keep _ sh _ _ ?_ ⟨by simp [opens],by simp [closes],fun fd h => h⟩
    simp only [Descriptors,hpc] at hd ⊢
    exact ⟨hd.1,hd.2.2 hlogs ▸ hd.2.1⟩
  | seekFailed hlogs hpc =>
    simp only [Descriptors,hpc] at hd ⊢
    exact ⟨hd.1,fun _ => hd.2.2 hlogs ▸ hd.2.1⟩
  | recv hlogs hpc | append hlogs hpc | send hlogs hpc | lock hlogs hpc | unlock hlogs hpc =>
    refine @Descriptors.keep _ sh _ _ ?_ ⟨by simp [opens],by simp [closes],fun fd h => h⟩
    simp_all [Descriptors]
  | _ => simp_all [Descriptors]

theorem Keeps.close {i j : Thread} {sh : Shared} {fd : ℤ} (hown : sh.fds fd = some i) (hj : j ≠ i) :
    Keeps j sh (sh.close i fd) := by
  refine ⟨by simp [opens],by simp [closes,hj.symm],fun x hx => ?_⟩
  have hne : x ≠ fd := by
    rintro rfl
    exact hj (Option.some.inj (hx.symm.trans hown))
  simpa [Function.update_of_ne hne] using hx

/-- A free number that one thread gets belonged to no other. -/
theorem claim_owned {i j : Thread} (sh : Shared) {fd x : ℤ} (hfree : sh.fds fd = none)
    (hx : sh.fds x = some j) : (sh.claim fd i).fds x = some j := by
  have hne : x ≠ fd := by
    rintro rfl
    simp [hfree] at hx
  simpa [Function.update_of_ne hne] using hx

theorem HandlerStep.keeps {self : ℕ} {sh sh' : Shared} {c c' : Conn} {m : Move} {j : Thread}
    (h : HandlerStep charDevice self sh c m c' sh') (hd : Descriptors self sh c)
    (hj : j ≠ .handler self) : Keeps j sh sh' := by
  cases h with
  | accept hpc hfd hfree | refuse hpc hfd hfree => exact ⟨rfl,rfl,fun x hx => claim_owned sh hfree hx⟩
  | openFile hlogs hpc hfd hfree =>
    exact ⟨by simp [opens,hj.symm],by simp [closes],fun x hx => claim_owned (sh.record _) hfree hx⟩
  | closeClient hlogs hpc =>
    simp only [Descriptors,hpc] at hd
    exact Keeps.close (hd.1.owned _ List.mem_cons_self) hj
  | closeData hlogs hpc hfd =>
    simp only [Descriptors,hpc] at hd
    exact Keeps.close (hd.2.2.1 _ (hd.1.opened hfd)) hj
  | _ => exact ⟨by simp [opens,hj.symm],by simp [closes],fun fd h => h⟩

theorem TimerStep.descriptors {self : ℕ} {sh sh' : Shared} {t t' : Timer} {k : TimerCall}
    (h : TimerStep charDevice self sh t k t' sh') (hd : TimerDescriptors self sh t) :
    TimerDescriptors self sh' t' := by
  cases h <;> simp_all [TimerDescriptors]

theorem TimerStep.keeps {self : ℕ} {sh sh' : Shared} {t t' : Timer} {k : TimerCall} {j : Thread}
    (h : TimerStep charDevice self sh t k t' sh') (hd : TimerDescriptors self sh t)
    (hj : j ≠ .timer self) : Keeps j sh sh' := by
  cases h with
  | openFile hpc hfd hfree =>
    exact ⟨by simp [opens,hj.symm],by simp [closes],fun x hx => claim_owned (sh.record _) hfree hx⟩
  | close hpc hfd => exact Keeps.close (hd (Or.inr (Or.inr hpc)) hfd.le) hj
  | _ => exact ⟨by simp [opens,hj.symm],by simp [closes],fun fd h => h⟩

theorem step_descriptors {s s' : Sys} {l : Label} (hs : Everywhere DescriptorsAt s)
    (h : step (move charDevice) s l = .ok s') : Everywhere DescriptorsAt s' := by
  obtain ⟨i,a⟩ := l
  obtain ⟨x,sh,hmove,rfl⟩ := step_ok_iff.mp h
  have hkeep : ∀ j, j ≠ i → Keeps j s.shared sh := by
    intro j hj
    cases i with
    | handler c => exact (handlerStep_of_move hmove).keeps (hs (.handler c)) hj
    | timer t => exact (timerStep_of_move hmove).2.keeps (hs (.timer t)) hj
  refine hs.update ?_ ?_
  · cases i with
    | handler c => exact (handlerStep_of_move hmove).descriptors (hs (.handler c))
    | timer t => exact (timerStep_of_move hmove).2.descriptors (hs (.timer t))
  · intro j hj hd
    cases j with
    | handler c => exact Descriptors.keep hd (hkeep _ hj)
    | timer t => exact fun hpc hfd => (hkeep _ hj).owned _ (hd hpc hfd)

theorem boot_descriptors : Everywhere DescriptorsAt boot := by
  intro i
  cases i with
  | handler c => simp [DescriptorsAt,boot,Descriptors,Conn.fresh,opens,closes]
  | timer t => simp [DescriptorsAt,boot,TimerDescriptors]

theorem visits_descriptors {ls : List Label} {s : Sys} (h : Visits (move charDevice) boot ls s) :
    Everywhere DescriptorsAt s := h.always boot_descriptors (fun _ _ _ hs hstep => step_descriptors hs hstep)

/-- The connection is over: its thread could not be created, or has ended. -/
def Over (s : Sys) (c : ℕ) : Prop := (s.conn c).pc = .refused ∨ (s.conn c).pc = .done

/-- The socket and every descriptor of the data file have been closed once. -/
def ClosedOnce (s : Sys) (c : ℕ) : Prop :=
  ∀ fd ∈ (s.conn c).clientFd :: dataFds c s.shared.log,
    (closes (.handler c) s.shared.log).count fd = 1

/-- No open but the last one succeeded, and the last one did not return descriptor zero. -/
def OnlyLastOpened (fds : List ℤ) : Prop := (∀ fd ∈ fds.dropLast, fd < 0) ∧ fds.getLast? ≠ some 0

/-- Opening at most one descriptor, other than zero, is what the cleanup can undo. -/
theorem closedOnce_iff {i : ℕ} {log : List Event} {clientFd dataFd : ℤ}
    (hdistinct : (clientFd :: dataFds i log).Nodup) (hlast : LastOpened i log dataFd)
    (hclosed : closes (.handler i) log = toClose clientFd dataFd) :
    (∀ fd ∈ clientFd :: dataFds i log, (closes (.handler i) log).count fd = 1) ↔
      OnlyLastOpened (opens (.handler i) log) := by
  rw [hclosed]
  unfold LastOpened at hlast
  cases hl : opens (.handler i) log using List.reverseRecOn with
  | nil =>
    simp only [hl,List.getLastD_nil] at hlast
    simp [dataFds,hl,toClose,hlast,OnlyLastOpened]
  | append_singleton xs last =>
    rw [hl,List.getLastD_concat] at hlast
    subst hlast
    have hdata : dataFds i log = xs.filter (fun fd => 0 ≤ fd) ++ [dataFd].filter (fun fd => 0 ≤ fd) := by
      rw [dataFds,hl,List.filter_append]
    simp only [OnlyLastOpened,List.dropLast_concat,List.getLast?_concat,ne_eq,Option.some.injEq]
    constructor
    · intro hcount
      have hnew : ∀ fd ∈ dataFds i log, 0 < dataFd ∧ fd = dataFd := by
        intro fd hfd
        have hne : fd ≠ clientFd := ne_of_mem_of_not_mem hfd (List.nodup_cons.mp hdistinct).1
        have hone := hcount fd (List.mem_cons_of_mem _ hfd)
        rw [toClose,List.count_cons_of_ne hne.symm] at hone
        split at hone
        · exact ⟨‹_›,(List.mem_singleton.mp (List.count_pos_iff.mp (by omega)))⟩
        · simp at hone
      constructor
      · intro fd hfd
        by_contra hneg
        have hmem : fd ∈ xs.filter (fun fd => 0 ≤ fd) := by
          simpa using ⟨hfd,not_lt.mp hneg⟩
        obtain ⟨hpos,rfl⟩ := hnew fd (by rw [hdata]; exact List.mem_append_left _ hmem)
        have hnodup := (List.nodup_cons.mp hdistinct).2
        rw [hdata] at hnodup
        exact List.disjoint_of_nodup_append hnodup hmem (by simpa using hpos.le)
      · intro hzero
        have := (hnew 0 (by rw [hdata,hzero]; simp)).1
        omega
    · rintro ⟨hneg,hzero⟩
      have hxs : xs.filter (fun fd => 0 ≤ fd) = [] := by
        simpa using hneg
      by_cases hpos : 0 < dataFd
      · have hd : dataFds i log = [dataFd] := by simp [hdata,hxs,hpos.le]
        rw [hd] at hdistinct ⊢
        have hne : clientFd ≠ dataFd := by simpa using hdistinct
        simp [toClose,hpos,hne,hne.symm]
      · have hd : dataFds i log = [] := by
          simp only [hdata,hxs,List.nil_append,List.filter_eq_nil_iff,List.mem_singleton]
          rintro fd rfl
          simp only [decide_eq_true_eq]
          omega
        simp [hd,toClose,hpos]

theorem visits_log_isPrefix {ls : List Label} {s t : Sys} (hrun : run (move charDevice) boot ls = .ok s)
    (ht : Visits (move charDevice) boot ls t) : t.shared.log <+: s.shared.log := by
  obtain ⟨pre,⟨post,rfl⟩,hpre⟩ := ht
  obtain ⟨t',ht',hpost⟩ := run_append.mp hrun
  obtain rfl : t = t' := Except.ok.inj (hpre.symm.trans ht')
  exact run_log hpost

theorem openDataFds_le_one {c : ℕ} {log log' : List Event} (hlog : log' <+: log)
    (h : OnlyLastOpened (opens (.handler c) log)) : (openDataFds c log').length ≤ 1 := by
  have hsub : (openDataFds c log').Sublist (dataFds c log) :=
    List.filter_sublist.trans ((hlog.sublist.filterMap _).filter _)
  refine hsub.length_le.trans ?_
  obtain ⟨hneg,-⟩ := h
  cases hl : opens (.handler c) log using List.reverseRecOn with
  | nil => simp [dataFds,hl]
  | append_singleton xs last =>
    rw [hl,List.dropLast_concat] at hneg
    have hxs : xs.filter (fun fd => 0 ≤ fd) = [] := by simpa using hneg
    rw [dataFds,hl,List.filter_append,hxs,List.nil_append]
    apply List.length_filter_le

/-- When a connection that was not cancelled is over, its socket and data-file
descriptors have been closed once each, with never more than one of the latter open,
exactly when its thread was created and no open but the last one gave a descriptor,
and that not the number zero. -/
theorem descriptors_closed_once_iff {ls : List Label} {s : Sys} {c : ℕ}
    (hrun : run (move charDevice) boot ls = .ok s) (hover : Over s c)
    (hcancelled : (s.conn c).cancelled = false) :
    (ClosedOnce s c ∧
      ∀ t, Visits (move charDevice) boot ls t → (openDataFds c t.shared.log).length ≤ 1) ↔
    (s.conn c).pc ≠ .refused ∧ OnlyLastOpened (opens (.handler c) s.shared.log) := by
  have hd : Descriptors c s.shared (s.conn c) := visits_descriptors (Visits.of_run hrun) (.handler c)
  rcases hover with hpc | hpc
  · simp only [Descriptors,hpc] at hd
    have hnot : ¬ ClosedOnce s c := by
      intro h
      simpa [hd.2.1] using h _ List.mem_cons_self
    simp [hpc,hnot]
  · simp only [Descriptors,hpc] at hd
    obtain ⟨hrem,hclosed,hlast⟩ := hd.2 hcancelled
    have hiff := closedOnce_iff hrem.distinct hlast hclosed
    simp only [hpc,ne_eq,reduceCtorEq,not_false_eq_true,true_and]
    exact ⟨fun h => hiff.mp h.1,fun h => ⟨hiff.mpr h,
      fun t ht => openDataFds_le_one (visits_log_isPrefix hrun ht) h⟩⟩

/-- The calls that serve one line up to the unlock. -/
def lineCalls (line : List UInt8) (fd : ℤ) : List Call :=
  [.recv (some line),.openFile fd,.seek true,.stage grantingRealloc,.lock 0,.append grantingAppend,
    .rewind true,.read grantingRead,.send line.length,.read grantingRead,.unlock,.rest grantingRealloc]

/-- A client that ends its connection, seen by its handler in the first recv after it. -/
def closingRun (c : ℕ) : List Label :=
  calls c [.recv none,.closeClient] ++ [⟨.handler c,.syslog⟩] ++ calls c [.closeData true,.release]

set_option maxRecDepth 4000

def oneLineRun : List Label := accepted 0 4 ++ calls 0 (lineCalls [97,10] 5) ++ closingRun 0

theorem oneLineRun_closes_all :
    ∃ s, run (move false) boot oneLineRun = .ok s ∧ Over s 0 ∧ ClosedOnce s 0 := by
  obtain ⟨s,hrun,hend⟩ := exists_of_returns
    (show returns (fun s : Sys => (s.conn 0).pc = .done ∧ (s.conn 0).cancelled = false ∧
      opens (.handler 0) s.shared.log = [5]) (run (move false) boot oneLineRun) = true by decide)
  obtain ⟨hdone,hcancelled,hopens⟩ := of_decide_eq_true hend
  have hiff := descriptors_closed_once_iff hrun (Or.inr hdone) hcancelled
  exact ⟨s,hrun,Or.inr hdone,(hiff.mpr ⟨by simp [hdone],by simp [OnlyLastOpened,hopens]⟩).1⟩

def twoLineRun : List Label :=
  accepted 0 4 ++ calls 0 (lineCalls [97,10] 5) ++
  calls 0 [.recv (some [98,10]),.openFile 6,.seek true,.stage grantingRealloc,.lock 0,
    .append grantingAppend,.rewind true,.read grantingRead,.send 4,.read grantingRead,.unlock,
    .rest grantingRealloc] ++ closingRun 0

theorem twoLineRun_leaves_open :
    ∃ s : Sys, run (move false) boot twoLineRun = .ok s ∧ Over s 0 ∧ (s.conn 0).cancelled = false ∧
      openDataFds 0 s.shared.log = [5] ∧ ¬ ClosedOnce s 0 := by
  obtain ⟨s,hrun,hend⟩ := exists_of_returns
    (show returns (fun s : Sys => (s.conn 0).pc = .done ∧ (s.conn 0).cancelled = false ∧
      openDataFds 0 s.shared.log = [5] ∧ 5 ∈ dataFds 0 s.shared.log ∧
      closes (.handler 0) s.shared.log = [4,6]) (run (move false) boot twoLineRun) = true by decide)
  obtain ⟨hdone,hcancelled,hopen,hmem,hcloses⟩ := of_decide_eq_true hend
  refine ⟨s,hrun,Or.inr hdone,hcancelled,hopen,fun h => ?_⟩
  have hone := h 5 (List.mem_cons_of_mem _ hmem)
  simp [hcloses] at hone

end Aesd.Server
