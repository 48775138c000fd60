import Aesd.Server.DeviceLog

/-! # The response to an append

With the char device the descriptor stands at position zero after a write, because
the driver puts it there. The handler then reads entry after entry and sends each of
them, and it holds the mutex all the time, so its response is the content of the
device as its own write left it.
-/
namespace Aesd.Server
open CharDevice Kernel CString Interleaving Lines Window Positions

def sent (c : ℕ) (log : List Event) : List UInt8 :=
  (log.filterMap (fun | .sent c' bytes => if c' = c then some bytes else none | _ => none)).flatten

@[simp] theorem sent_append (c : ℕ) (log log' : List Event) :
    sent c (log ++ log') = sent c log ++ sent c log' := by simp [sent]
@[simp] theorem sent_sent (c : ℕ) (bytes : List UInt8) : sent c [.sent c bytes] = bytes := by simp [sent]
theorem sent_sent_of_ne {c c' : ℕ} (h : c' ≠ c) (bytes : List UInt8) :
    sent c [.sent c' bytes] = [] := by simp [sent,h]
@[simp] theorem sent_received (c c' : ℕ) (bytes : List UInt8) : sent c [.received c' bytes] = [] := rfl
@[simp] theorem sent_opened (c : ℕ) (i : Thread) (fd : ℤ) : sent c [.opened i fd] = [] := rfl
@[simp] theorem sent_closed (c : ℕ) (i : Thread) (fd : ℤ) : sent c [.closed i fd] = [] := rfl
@[simp] theorem sent_sought (c : ℕ) (i : Thread) : sent c [.sought i] = [] := rfl
@[simp] theorem sent_appended (c : ℕ) (i : Thread) (payload accepted : List UInt8) :
    sent c [.appended i payload accepted] = [] := rfl

/-- open, lock, the operations of the driver and send succeed, and send takes all bytes. -/
def granted (s : Sys) : Label → Bool
  | ⟨.handler c,.call k⟩ =>
    match k with
    | .openFile fd => 0 ≤ fd
    | .lock rc => rc = 0
    | .append env => env.write.lock && env.write.copy
    | .read env => env.device.lock && env.device.copy
    | .send rc => rc = (s.conn c).readbuf.length
    | _ => true
  | _ => true

/-- The data file of a handler past its open is open. -/
def OpenedAt : (i : Thread) → Shared → Local i → Prop
  | .handler _ => fun _ (x : Conn) =>
    x.pc ∈ [Pc.seek,.stage,.lock,.append,.rewind,.read,.send,.unlock] → 0 ≤ x.dataFd
  | .timer _ => fun _ _ => True

theorem step_opened {s s' : Sys} {l : Label} (hs : Everywhere OpenedAt s) (hg : granted s l = true)
    (h : step (move true) s l = .ok s') : Everywhere OpenedAt s' := by
  refine everywhere_of_step (fun _ _ _ => trivial) ?_ ?_ h
  · rintro c m x sh rfl hstep
    have hc : OpenedAt (.handler c) s.shared (s.conn c) := hs (.handler c)
    simp only [OpenedAt] at hc ⊢
    cases hstep with
    | openFailed hlogs hpc hfd => exact absurd hg (by simpa [granted] using hfd)
    | openFile hlogs hpc hfd => exact fun _ => hfd
    | seek hlogs hpc | stage hlogs hpc | lock hlogs hpc | append hlogs hpc | rewind hlogs hpc
    | read hlogs hpc | readEnd hlogs hpc | send hlogs hpc => exact fun _ => hc (by simp [hpc])
    | syslog | requestCancel => exact hc
    | _ => simp
  · exact fun c _ _ _ _ _ _ => hs (.handler c)

theorem boot_opened : Everywhere OpenedAt boot := by
  intro i
  cases i <;> simp [OpenedAt,boot,Conn.fresh]

theorem visits_opened {ls : List Label} {s : Sys}
    (hg : ∀ t l, Takes (move true) boot ls t l → granted t l = true)
    (hs : Visits (move true) boot ls s) : Everywhere OpenedAt s :=
  hs.invariant (G := fun t l => granted t l = true) boot_opened (fun _ _ _ hI hG h => step_opened hI hG h) hg

theorem readDatafile_settled {env : ReadOutcome} {d : DataFile} {fd : ℤ} {xs : List (List UInt8)}
    (hd : Settled d.device xs) (hfd : 0 ≤ fd) (hg : (env.device.lock && env.device.copy) = true)
    (hlen : ∀ x ∈ xs, x.length ≤ readbufSize) (fPos : ℕ) :
    readDatafile true env d fd fPos = .ok (((readAt xs fPos).length : ℤ),readAt xs fPos,
      fPos + (readAt xs fPos).length) := by
  obtain ⟨hlock,hcopy⟩ := Bool.and_eq_true_iff.mp hg
  have hcon := hd.contents_eq
  obtain ⟨es,hk,-⟩ := hd
  have hread := aesdRead_spec hk env.device (UInt64.ofNat readbufSize) fPos
  rw [if_neg (by simp [hlock]),if_neg (by simp [hcopy]),hcon] at hread
  have hle := length_readAt_le hlen fPos
  simp only [readDatafile,if_neg (not_lt.mpr hfd),if_true,hread,bind,Except.bind]
  rw [if_neg (not_lt.mpr hle),if_neg (by omega)]
  rfl

/-- How far a response has come: n reads done, this much sent, with the entries xs. -/
def Phase (xs : List (List UInt8)) (response : List UInt8) (n : ℕ) (x : Conn) : Prop :=
  match x.pc with
  | .rewind => x.fPos = 0 ∧ response = [] ∧ n = 0
  | .read =>
    response = xs.flatten.take x.fPos ∧ n ≤ xs.length ∧ ((xs.map List.length).take n).sum ≤ x.fPos
  | .send =>
    response ++ x.readbuf = xs.flatten.take x.fPos ∧ n ≤ xs.length ∧
      ((xs.map List.length).take n).sum ≤ x.fPos
  | .unlock => response = xs.flatten ∧ n ≤ xs.length + 1
  | _ => False

/-- One read for each entry and one that finds the end; nothing is sent out of order. -/
theorem Phase.progress {xs : List (List UInt8)} {response : List UInt8} {n : ℕ} {x : Conn}
    (h : Phase xs response n x) :
    n ≤ xs.length + 1 ∧ response <+: xs.flatten ∧ (x.pc = .unlock → response = xs.flatten) := by
  unfold Phase at h
  split at h
  · obtain ⟨-,rfl,rfl⟩ := h
    exact ⟨by omega, List.nil_prefix,by simp_all⟩
  · obtain ⟨rfl,hn,-⟩ := h
    exact ⟨by omega, List.take_prefix _ _,by simp_all⟩
  · obtain ⟨hresp,hn,-⟩ := h
    exact ⟨by omega,(List.prefix_append _ _).trans (hresp ▸ List.take_prefix _ _),by simp_all⟩
  · exact ⟨h.2,h.1 ▸ List.prefix_rfl,fun _ => h.1⟩
  · exact h.elim

def isRead (c : ℕ) : Label → Bool
  | ⟨.handler c',.call (.read _)⟩ => c' = c
  | _ => false

/-- The handler c neither unlocks nor is cancelled. -/
def goesOn (c : ℕ) : Label → Bool
  | ⟨.handler c',.call .unlock⟩ => c' ≠ c
  | ⟨.handler c',.cancel⟩ => c' ≠ c
  | _ => true

def isAppend : Label → Bool
  | ⟨.handler _,.call (.append _)⟩ => true
  | _ => false

theorem HandlerStep.phase {c : ℕ} {sh sh' : Shared} {x x' : Conn} {m : Move}
    {xs : List (List UInt8)} {before response : List UInt8} {n : ℕ}
    (h : HandlerStep true c sh x m x' sh') (hgo : goesOn c ⟨.handler c,m⟩ = true)
    (hread : ∀ env, m = .call (.read env) → (env.device.lock && env.device.copy) = true)
    (hsend : ∀ rc, m = .call (.send rc) → rc = x.readbuf.length)
    (hd : Settled sh.data.device xs) (hlen : ∀ x ∈ xs, x.length ≤ readbufSize) (hfd : 0 ≤ x.dataFd)
    (hsent : sent c sh.log = before ++ response) (hp : Phase xs response n x) :
    sh'.data = sh.data ∧ sh'.mutex = sh.mutex ∧ x'.dataFd = x.dataFd ∧
      isAppend ⟨.handler c,m⟩ = false ∧ ∃ response',
      sent c sh'.log = before ++ response' ∧
        Phase xs response' (n + if isRead c ⟨.handler c,m⟩ then 1 else 0) x' := by
  cases h with
  | syslog => exact ⟨rfl,rfl,rfl,rfl,response,hsent,by simpa [isRead,Phase] using hp⟩
  | requestCancel => exact ⟨rfl,rfl,rfl,rfl,response,hsent,by simpa [isRead,Phase] using hp⟩
  | cancelInCleanup | cancel => simp [goesOn] at hgo
  | rewind hlogs hpc hadjust =>
    simp only [Phase,hpc] at hp
    obtain ⟨hpos,rfl,rfl⟩ := hp
    simp only [adjustDatafilePos,if_true,Prod.mk.injEq] at hadjust
    obtain ⟨-,rfl⟩ := hadjust
    exact ⟨rfl,rfl,rfl,rfl,[],hsent,by simp [isRead,Phase,hpos]⟩
  | read hlogs hpc hreads hm =>
    rw [readDatafile_settled hd hfd (hread _ rfl) hlen] at hreads
    simp only [Except.ok.injEq,Prod.mk.injEq] at hreads
    obtain ⟨rfl,rfl,rfl⟩ := hreads
    simp only [Phase,hpc] at hp
    obtain ⟨hresp,hn,hsum⟩ := hp
    have hne : readAt xs x.fPos ≠ [] := by
      intro hnil
      simp [hnil] at hm
    have hlt : n < xs.length := by
      by_contra hge
      exact hne (readAt_of_length_le (not_lt.mp hge) hsum)
    refine ⟨rfl,rfl,rfl,rfl,response,hsent,?_⟩
    simp only [Phase,isRead,decide_true,if_true]
    exact ⟨by rw [hresp,take_add_readAt],hlt,sum_take_succ_le hsum hne⟩
  | readEnd hlogs hpc hreads hm =>
    rw [readDatafile_settled hd hfd (hread _ rfl) hlen] at hreads
    simp only [Except.ok.injEq,Prod.mk.injEq] at hreads
    obtain ⟨rfl,rfl,rfl⟩ := hreads
    simp only [Phase,hpc] at hp
    obtain ⟨hresp,hn,hsum⟩ := hp
    have hnil : readAt xs x.fPos = [] := List.length_eq_zero_iff.mp (by omega)
    refine ⟨rfl,rfl,rfl,rfl,response,hsent,?_⟩
    simp only [Phase,isRead,decide_true,if_true]
    exact ⟨by rw [hresp,List.take_of_length_le ((readAt_eq_nil_iff xs _).mp hnil)],by omega⟩
  | sendFailed hlogs hpc hrc =>
    have := hsend _ rfl
    omega
  | send hlogs hpc hrc hle =>
    obtain rfl := hsend _ rfl
    simp only [Phase,hpc] at hp
    refine ⟨rfl,rfl,rfl,rfl,response ++ x.readbuf,?_,?_⟩
    · simp [hsent]
    · simpa [Phase,isRead] using hp
  | unlock | unlockFailed => simp [goesOn] at hgo
  | stage hlogs hpc => simp [Phase,hpc] at hp
  | accept hpc => simp [Phase,hpc] at hp
  | refuse hpc => simp [Phase,hpc] at hp
  | _ => simp_all [Phase]

theorem sent_move {charDevice : Bool} {i : Thread} {c : ℕ} {sh sh' : Shared} {x x' : Local i}
    {a : Act i} (h : move charDevice i sh x a = .ok (x',sh')) (hc : .handler c ≠ i) :
    sent c sh'.log = sent c sh.log := by
  rcases move_log h with hlog | ⟨e,hlog,hthread⟩
  · rw [hlog]
  · rw [hlog,sent_append]
    cases e with
    | sent c' bytes =>
      have hne : c' ≠ c := by
        rintro rfl
        exact hc hthread
      rw [sent_sent_of_ne hne,List.append_nil]
    | _ => simp

/-- The handler c is answering after an append that left the data file d, with n reads
done; before is what it had sent until then. -/
structure Responding (c : ℕ) (d : DataFile) (before : List UInt8) (n : ℕ) (s : Sys) : Prop where
  owner : s.shared.mutex = some (.handler c)
  data : s.shared.data = d
  fd : 0 ≤ (s.conn c).dataFd
  phase : ∃ response, sent c s.shared.log = before ++ response ∧
    Phase (contents d.device) response n (s.conn c)

/-- Nobody appends while a handler is answering, and its response grows as it should. -/
theorem step_responding {s s' : Sys} {l : Label} {c n : ℕ} {d : DataFile} {before : List UInt8}
    (hl : Everywhere LockingAt s) (hd : Settled d.device (contents d.device))
    (hlen : ∀ x ∈ contents d.device, x.length ≤ readbufSize) (hg : granted s l = true)
    (hgo : goesOn c l = true) (h : step (move true) s l = .ok s') (hr : Responding c d before n s) :
    Responding c d before (n + if isRead c l then 1 else 0) s' ∧ isAppend l = false := by
  obtain ⟨howner,rfl,hfd,response,hsent,hphase⟩ := hr
  obtain ⟨i,a⟩ := l
  obtain ⟨x,sh,hmove,rfl⟩ := step_ok_iff.mp h
  by_cases hi : i = .handler c
  · subst hi
    obtain ⟨hdata,hmutex,hfd',happ,response',hsent',hphase'⟩ :=
      (handlerStep_of_move hmove).phase hgo
        (by rintro env rfl; simpa [granted] using hg)
        (by rintro rc rfl; exact of_decide_eq_true hg) hd hlen hfd hsent hphase
    exact ⟨⟨hmutex.trans howner,hdata,by simpa [Sys.conn,hfd'] using hfd,response',hsent',
      by simpa [Sys.conn] using hphase'⟩,happ⟩
  · have hne : Thread.handler c ≠ i := fun h => hi h.symm
    have hconn : Sys.conn ⟨sh,Function.update s.locals i x⟩ c = Sys.conn s c := by
      simp [Sys.conn,Function.update_of_ne hne]
    have hmutex : sh.mutex = some (.handler c) := (move_mutex_other hmove hne).mpr howner
    cases i with
    | timer t => exact absurd (timerStep_of_move hmove).1 (by simp)
    | handler j =>
      have hcj : j ≠ c := fun h => hne (by rw [h])
      have hread : isRead c ⟨.handler j,a⟩ = false := by
        unfold isRead
        split
        · rename_i heq
          cases heq
          simpa using hcj
        · rfl
      have hlock : Locking j s.shared (Sys.conn s j) := hl (.handler j)
      have hout : (Sys.conn s j).pc ≠ .append := by
        intro hpc
        have hown := hlock.inside (by rw [hpc]; rfl)
        rw [howner] at hown
        exact hcj (by simpa using hown.symm)
      have hdata : sh.data = s.shared.data ∧ isAppend ⟨.handler j,a⟩ = false := by
        cases handlerStep_of_move hmove with
        | append hlogs hpc => exact absurd hpc hout
        | _ => exact ⟨rfl,rfl⟩
      rw [hread]
      exact ⟨⟨hmutex,hdata.1,by rw [hconn]; exact hfd,response,by rw [sent_move hmove hne]; exact hsent,
        by rw [hconn]; exact hphase⟩,hdata.2⟩

theorem run_responding {s₁ s₂ : Sys} {mid : List Label} {c : ℕ} {d : DataFile} {before : List UInt8}
    (hl : Everywhere LockingAt s₁) (hd : Settled d.device (contents d.device))
    (hlen : ∀ x ∈ contents d.device, x.length ≤ readbufSize) (hr : Responding c d before 0 s₁)
    (hg : ∀ s l, Takes (move true) s₁ mid s l → granted s l = true) (hgo : ∀ l ∈ mid, goesOn c l = true)
    (hmid : run (move true) s₁ mid = .ok s₂) :
    Everywhere LockingAt s₂ ∧ Responding c d before (mid.countP (isRead c)) s₂ ∧
      ∀ l ∈ mid, isAppend l = false := by
  induction mid using List.reverseRecOn generalizing s₂ with
  | nil =>
    obtain rfl := run_nil.mp hmid
    exact ⟨hl,hr,by simp⟩
  | append_singleton mid l ih =>
    obtain ⟨s,hrun,hstep⟩ := run_snoc.mp hmid
    obtain ⟨hl',hr',happ⟩ := ih (fun t k h => hg t k (h.extend (List.prefix_append _ _)))
      (fun k hk => hgo k (List.mem_append_left _ hk)) hrun
    have hlast : granted s l = true := hg s l ⟨mid,s₂,List.prefix_rfl,hrun,hstep⟩
    obtain ⟨hnext,hnot⟩ := step_responding hl' hd hlen hlast (hgo l (by simp)) hstep hr'
    refine ⟨step_locking hl' hstep,?_,?_⟩
    · simpa [List.countP_append,List.countP_cons] using hnext
    · intro k hk
      rcases List.mem_append.mp hk with hk | hk
      · exact happ k hk
      · rw [List.mem_singleton.mp hk]
        exact hnot

theorem Responding.read_returns {s : Sys} {c n : ℕ} {d : DataFile} {before : List UInt8}
    (hr : Responding c d before n s) (hd : Settled d.device (contents d.device))
    (hlen : ∀ x ∈ contents d.device, x.length ≤ readbufSize) (hpc : (s.conn c).pc = .read)
    (hlogs : (s.conn c).logs = 0) {env : ReadOutcome}
    (hg : (env.device.lock && env.device.copy) = true) :
    ∃ s', step (move true) s ⟨.handler c,.call (.read env)⟩ = .ok s' := by
  obtain ⟨-,rfl,hfd,-⟩ := hr
  have hread := readDatafile_settled hd hfd hg hlen (s.conn c).fPos
  have hmove : ∃ v, handlerMove true c s.shared (s.conn c) (.call (.read env)) = .ok v := by
    simp only [handlerMove,hlogs,hpc,Call.pc,and_self,if_true,perform,hread,orFault,Except.mapError,
      bind,Except.bind]
    split <;> exact ⟨_,rfl⟩
  obtain ⟨v,hv⟩ := hmove
  exact ⟨_,step_ok_iff.mpr ⟨v.1,v.2,hv,rfl⟩⟩

theorem appended_line {pre : List Label} {c : ℕ} {env : AppendEnv} {s₀ s₁ : Sys} {payload : List UInt8}
    (hpre : run (move true) boot pre = .ok s₀)
    (happend : step (move true) s₀ ⟨.handler c,.call (.append env)⟩ = .ok s₁)
    (hgranted : ∀ s l, Takes (move true) boot (pre ++ [⟨.handler c,.call (.append env)⟩]) s l →
      granted s l = true)
    (hb : Bounded maxRwCount s₀.shared.log) (hpayload : cstr (s₀.conn c).buffer = some payload)
    (hplain : ¬ matchCmd <:+: payload) :
    s₁.shared.log = s₀.shared.log ++ [.appended (.handler c) payload (takeLine newline payload)] ∧
    (contents s₁.shared.data.device).getLast? = some (takeLine newline payload) ∧
    Responding c s₁.shared.data (sent c s₁.shared.log) 0 s₁ := by
  have hv₀ := Visits.of_run hpre
  have hopened := visits_opened (fun t l h => hgranted t l (h.extend (List.prefix_append _ _))) hv₀
  have hgrant : granted s₀ ⟨.handler c,.call (.append env)⟩ = true :=
    hgranted _ _ ⟨pre,s₁,List.prefix_rfl,hpre,happend⟩
  have hlock : Locking c s₀.shared (s₀.conn c) := visits_locking hv₀ (.handler c)
  obtain ⟨x,sh,hmove,rfl⟩ := step_ok_iff.mp happend
  cases handlerStep_of_move hmove with
  | append hlogs hpc hpayload' hdata =>
    obtain rfl := Option.some.inj (hpayload.symm.trans hpayload')
    have hpc' : (s₀.conn c).pc = .append := hpc
    have hfd : 0 ≤ (s₀.conn c).dataFd := hopened (.handler c) (by simp [hpc])
    obtain ⟨hrec,hwhen⟩ := append_recorded hb (visits_framed hv₀ (.handler c))
      (visits_recorded hv₀ hb) hpc hpayload hdata
    obtain ⟨hacc,hpos⟩ := hwhen hfd hplain hgrant
    have hne : takeLine newline payload ≠ [] := by
      have hmem := (appending_payload hb (visits_framed hv₀ (.handler c)) hpc' hpayload).1
      exact List.ne_nil_of_mem ((mem_takeLine_iff newline payload).mpr hmem)
    refine ⟨by simp [hacc],?_,?_⟩
    · rw [hrec.settled.contents_eq]
      simp only [Shared.record_log,stored_append,hacc,stored_appended _ _ hne]
      simp [List.rtake_concat_succ]
    · refine ⟨hlock.inside (by rw [hpc']; rfl),rfl,by simpa [Sys.conn] using hfd,[],by simp,?_⟩
      simp [Sys.conn,Phase,hpos]

/-- The handler c appends a string without the seek prefix in s₀, which leads to s₁, and
the run goes on to s₂ with c still answering. The line that the driver accepted is the
last entry, nobody else has appended since, and what c has sent since is a first part
of the entries as they were in s₁, and all of it once c has come to its unlock; it
takes at most eleven reads, each of which returns. -/
theorem response_is_snapshot {pre mid : List Label} {c : ℕ} {env : AppendEnv} {s₀ s₁ s₂ : Sys}
    {payload : List UInt8} (hpre : run (move true) boot pre = .ok s₀)
    (happend : step (move true) s₀ ⟨.handler c,.call (.append env)⟩ = .ok s₁)
    (hmid : run (move true) s₁ mid = .ok s₂)
    (hgranted : ∀ s l, Takes (move true) boot (pre ++ [⟨.handler c,.call (.append env)⟩] ++ mid) s l →
      granted s l = true)
    (hbounded : Bounded readbufSize s₂.shared.log) (hpayload : cstr (s₀.conn c).buffer = some payload)
    (hplain : ¬ matchCmd <:+: payload) (hgo : ∀ l ∈ mid, goesOn c l = true) :
    s₁.shared.log = s₀.shared.log ++ [.appended (.handler c) payload (takeLine newline payload)] ∧
    (contents s₁.shared.data.device).getLast? = some (takeLine newline payload) ∧
    s₂.shared.data = s₁.shared.data ∧ (∀ l ∈ mid, isAppend l = false) ∧
    mid.countP (isRead c) ≤ 11 ∧
    (∃ response, sent c s₂.shared.log = sent c s₁.shared.log ++ response ∧
      response <+: (contents s₁.shared.data.device).flatten ∧
      ((s₂.conn c).pc = .unlock → response = (contents s₁.shared.data.device).flatten)) ∧
    ∀ env : ReadOutcome, (env.device.lock && env.device.copy) = true → (s₂.conn c).pc = .read →
      (s₂.conn c).logs = 0 → ∃ s₃, step (move true) s₂ ⟨.handler c,.call (.read env)⟩ = .ok s₃ := by
  have hrun₁ : run (move true) boot (pre ++ [⟨.handler c,.call (.append env)⟩]) = .ok s₁ :=
    run_snoc.mpr ⟨s₀,hpre,happend⟩
  have hb₁ := hbounded.earlier (run_log hmid)
  have hb₀ := (hb₁.earlier (step_log happend)).mono (show readbufSize ≤ maxRwCount by decide)
  obtain ⟨hlog,hline,hresp⟩ := appended_line hpre happend
    (fun s l h => hgranted s l (h.extend (List.prefix_append _ _))) hb₀ hpayload hplain
  have hframed₁ := visits_framed (Visits.of_run hrun₁)
  have hrec := visits_recorded (Visits.of_run hrun₁) (hb₁.mono (by decide))
  have hcon := hrec.settled.contents_eq
  have hset : Settled s₁.shared.data.device (contents s₁.shared.data.device) := by
    rw [hcon]
    exact hrec.settled
  have hlen : ∀ x ∈ contents s₁.shared.data.device, x.length ≤ readbufSize := by
    intro x hx
    rw [hcon] at hx
    exact hrec.length_le hframed₁ hb₁ x ((rtake_suffix _ _).subset hx)
  have hten : (contents s₁.shared.data.device).length ≤ 10 := by
    rw [hcon,length_rtake]
    apply min_le_left
  obtain ⟨-,hr₂,happ⟩ := run_responding (visits_locking (Visits.of_run hrun₁)) hset hlen hresp
    (fun s l h => hgranted s l (h.after hrun₁)) hgo hmid
  obtain ⟨response,hsent,hphase⟩ := hr₂.phase
  obtain ⟨hcount,hpart,hall⟩ := hphase.progress
  exact ⟨hlog,hline,hr₂.data,happ,by omega,⟨response,hsent,hpart,hall⟩,
    fun env hg hpc hlogs => hr₂.read_returns hset hlen hpc hlogs hg⟩

set_option maxRecDepth 4000

/-- Two clients; the second is about to append "x\n" after the first has stored "a\n". -/
def secondClientPre : List Label :=
  accepted 0 4 ++ accepted 1 5 ++ calls 0 (chunkCalls [97,10] 6 [2]) ++
    calls 1 [.recv (some [120,10]),.openFile 7,.seek true,.stage grantingRealloc,.lock 0]

def secondClientMid : List Label :=
  calls 1 [.rewind true,.read grantingRead,.send 2,.read grantingRead,.send 2,.read grantingRead]

theorem secondClient_gets_both : ∃ s₁ s₂ : Sys,
    run (move true) boot (secondClientPre ++ [⟨.handler 1,.call (.append grantingAppend)⟩]) = .ok s₁ ∧
    run (move true) s₁ secondClientMid = .ok s₂ ∧ (s₂.conn 1).pc = .unlock ∧
    sent 1 s₂.shared.log = sent 1 s₁.shared.log ++ [97,10,120,10] := by
  obtain ⟨s₀,hpre,h₀⟩ := exists_of_returns
    (show returns (fun s : Sys => cstr (s.conn 1).buffer = some [120,10])
      (run (move true) boot secondClientPre) = true by decide)
  obtain ⟨s₁,hrun₁,h₁⟩ := exists_of_returns
    (show returns (fun s : Sys => contents s.shared.data.device = [[97,10],[120,10]])
      (run (move true) boot (secondClientPre ++ [⟨.handler 1,.call (.append grantingAppend)⟩])) = true by
        decide)
  obtain ⟨s₂,hrun₂,h₂⟩ := exists_of_returns
    (show returns (fun s : Sys => (s.conn 1).pc = .unlock ∧
        receipts s.shared.log = [(0,[97,10]),(1,[120,10])])
      (run (move true) boot (secondClientPre ++ [⟨.handler 1,.call (.append grantingAppend)⟩] ++
        secondClientMid)) = true by decide)
  obtain ⟨t₀,ht₀,happend⟩ := run_snoc.mp hrun₁
  obtain rfl := Except.ok.inj (hpre.symm.trans ht₀)
  obtain ⟨t₁,ht₁,hmid⟩ := run_append.mp hrun₂
  obtain rfl := Except.ok.inj (hrun₁.symm.trans ht₁)
  obtain ⟨hpc,hlog⟩ := of_decide_eq_true h₂
  have hpass : stepsPass (move true) granted boot (secondClientPre ++
    [⟨.handler 1,.call (.append grantingAppend)⟩] ++ secondClientMid) = true := by decide
  have hbounded : Bounded readbufSize s₂.shared.log := by
    intro c
    simp only [received,chunks_eq,hlog]
    by_cases h0 : c = 0
    · subst h0
      exact ⟨by decide,by decide⟩
    · by_cases h1 : c = 1
      · subst h1
        exact ⟨by decide,by decide⟩
      · simp [Ne.symm h0,Ne.symm h1,lines,cut]
  obtain ⟨-,-,-,-,-,⟨response,hsent,-,hall⟩,-⟩ := response_is_snapshot hpre happend hmid
    (fun _ _ h => pass_of_takes hpass h) hbounded (of_decide_eq_true h₀) (by decide) (by decide)
  refine ⟨s₁,s₂,hrun₁,hmid,hpc,?_⟩
  rw [hsent,hall hpc,of_decide_eq_true h₁]
  rfl

end Aesd.Server
