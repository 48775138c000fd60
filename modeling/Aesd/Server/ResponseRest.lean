import Aesd.Server.CriticalSections
import Aesd.Server.Response

/-! # What a response contains

send_response reads on from where its descriptor stands until nothing is left, and its
thread owns the mutex. So in both builds, and after a line as after a seek command, a
response is what the content holds from a certain position on. Failures only cut it
short.
-/
namespace Aesd.Server
open CharDevice Kernel CString Interleaving CriticalSection Positions

/-- What reads of the data file deliver, all in all. -/
def content (charDevice : Bool) (d : DataFile) : List UInt8 :=
  if charDevice then (contents d.device).flatten else d.file

def HoldsDevice (d : DataFile) : Prop := ∃ tmp es, Holds d.device tmp es

theorem appendDatafile_holds {env : AppendEnv} {d : DataFile} {fd : ℤ} {fPos : ℕ}
    {buf payload : List UInt8} {r : AppendResult} (hd : HoldsDevice d) (hpayload : cstr buf = some payload)
    (h : appendDatafile true env d fd fPos buf (intOf payload.length) = .ok r) : HoldsDevice r.data := by
  obtain ⟨tmp,es,hk⟩ := hd
  simp only [appendDatafile,if_true] at h
  obtain ⟨cmd,-,h⟩ := bind_eq_ok.mp h
  cases cmd with
  | some seekto =>
    obtain rfl := Except.ok.inj h
    refine ⟨tmp,es,?_⟩
    unfold seekDevice
    split <;> exact hk
  | none =>
    simp only [writeDevice] at h
    cases hw : writeCount fd (intOf payload.length) with
    | none =>
      simp only [hw] at h
      obtain rfl := Except.ok.inj h
      exact ⟨tmp,es,hk⟩
    | some n =>
      simp only [hw] at h
      obtain ⟨⟨ret,pos,k⟩,hwrite,h⟩ := bind_eq_ok.mp h
      have hn : n ≤ buf.length ∧ n ≤ maxRwCount := by
        have hle := intOf_toNat_le payload.length
        have hlt := length_lt_of_cstr hpayload
        simp only [writeCount] at hw
        split at hw
        · simp at hw
        · obtain rfl := Option.some.inj hw
          omega
      have hcount : (UInt64.ofNat n).toNat = (buf.take n).length := by
        rw [UInt64.toNat_ofNat',List.length_take]
        simp only [maxRwCount] at hn
        omega
      rcases aesdWrite_outcome hk env.write fPos hcount with ⟨r',pos',k',tmp',es',hok,hk'⟩ | herr | herr
      · obtain ⟨-,-,rfl⟩ : r' = ret ∧ pos' = pos ∧ k' = k := by simpa [hwrite] using hok.symm
        dsimp only at h
        split at h
        · obtain rfl := Except.ok.inj h
          exact ⟨tmp',es',hk'⟩
        · obtain rfl := Except.ok.inj h
          exact ⟨tmp',es',hk'⟩
      · simp [hwrite] at herr
      · simp [hwrite] at herr

theorem step_holdsDevice {s s' : Sys} {l : Label} (hd : HoldsDevice s.shared.data)
    (h : step (move true) s l = .ok s') : HoldsDevice s'.shared.data := by
  obtain ⟨i,a⟩ := l
  obtain ⟨x,sh,hmove,rfl⟩ := step_ok_iff.mp h
  cases i with
  | timer t => exact absurd (timerStep_of_move hmove).1 (by simp)
  | handler c =>
    cases handlerStep_of_move hmove with
    | append hlogs hpc hpayload happend => exact appendDatafile_holds hd hpayload happend
    | _ => exact hd

theorem visits_holdsDevice {ls : List Label} {s : Sys} (h : Visits (move true) boot ls s) :
    HoldsDevice s.shared.data :=
  h.always (I := fun t => HoldsDevice t.shared.data) ⟨none,[],holds_init⟩
    (fun _ _ _ hd hstep => step_holdsDevice hd hstep)

/-- The operations behind a read do not fail. -/
def readSucceeds (charDevice : Bool) (env : ReadOutcome) : Bool :=
  if charDevice then env.device.lock && env.device.copy else env.more.isSome

theorem drop_of_append {bytes data rest : List UInt8} {p : ℕ} (h : data ++ rest = bytes.drop p) :
    bytes.drop (p + data.length) = rest := by
  rw [← List.drop_drop,← h,List.drop_left]

/-- A read hands out what stands next in the content, or ends the response; it then
failed or had nothing left to deliver. -/
theorem readDatafile_spec {charDevice : Bool} {env : ReadOutcome} {d : DataFile} {fd m : ℤ} {fPos pos : ℕ}
    {data : List UInt8} (hd : charDevice = true → HoldsDevice d)
    (h : readDatafile charDevice env d fd fPos = .ok (m,data,pos)) :
    data ++ (content charDevice d).drop pos = (content charDevice d).drop fPos ∧
    (m ≤ 0 → data = [] ∧
      (readSucceeds charDevice env = true → 0 ≤ fd → (content charDevice d).drop pos = [])) := by
  unfold readDatafile at h
  by_cases hfd : fd < 0
  · rw [if_pos hfd] at h
    cases h
    exact ⟨rfl,fun _ => ⟨rfl,fun _ hge => absurd hfd (not_lt.mpr hge)⟩⟩
  rw [if_neg hfd] at h
  cases charDevice with
  | false =>
    simp only [Bool.false_eq_true,if_false] at h
    cases hmore : env.more with
    | none =>
      simp only [hmore] at h
      cases h
      exact ⟨rfl,fun _ => ⟨rfl,fun hs _ => by simp [readSucceeds,hmore] at hs⟩⟩
    | some n =>
      simp only [hmore] at h
      cases h
      have hprefix : ((d.file.drop fPos).take readbufSize).take (n+1) <+: d.file.drop fPos :=
        (List.take_prefix _ _).trans (List.take_prefix _ _)
      obtain ⟨rest,hrest⟩ := hprefix
      simp only [content,Bool.false_eq_true,if_false]
      refine ⟨by rw [drop_of_append hrest,hrest],fun hm => ?_⟩
      have hlen : (((d.file.drop fPos).take readbufSize).take (n+1)).length = 0 := by omega
      refine ⟨List.length_eq_zero_iff.mp hlen,fun _ _ => ?_⟩
      rw [hlen,Nat.add_zero,← List.length_eq_zero_iff]
      simp only [List.length_take,readbufSize] at hlen
      omega
  | true =>
    simp only [if_true] at h
    obtain ⟨⟨ret,bytes,pos'⟩,hread,h⟩ := bind_eq_ok.mp h
    obtain ⟨tmp,es,hk⟩ := hd rfl
    rw [aesdRead_spec hk] at hread
    dsimp only at h
    split at h
    · cases h
    · simp only [content,if_true]
      cases hlock : env.device.lock with
      | false =>
        rw [if_pos hlock] at hread
        cases hread
        rw [if_pos (by simp [ERESTARTSYS])] at h
        cases h
        exact ⟨rfl,fun _ => ⟨rfl,fun hs _ => by simp [readSucceeds,hlock] at hs⟩⟩
      | true =>
        rw [if_neg (by simp [hlock])] at hread
        split at hread
        · rename_i hfail
          cases hread
          rw [if_pos (by simp [EFAULT])] at h
          cases h
          exact ⟨rfl,fun _ => ⟨rfl,fun hs _ => by simp [readSucceeds,hfail.1] at hs⟩⟩
        · cases hread
          rw [if_neg (by omega)] at h
          cases h
          refine ⟨readAt_append_drop_add _ _,fun hm => ?_⟩
          have hnil : readAt (contents d.device) fPos = [] := List.length_eq_zero_iff.mp (by omega)
          refine ⟨hnil,fun _ _ => ?_⟩
          rw [hnil,List.length_nil,Nat.add_zero]
          exact List.drop_eq_nil_of_le ((readAt_eq_nil_iff _ _).mp hnil)

/-- How far the handler has come that answers from position p on: what it has sent and
what it holds stand before the rest of the content. It has come to its unlock with a rest
only if a read failed. -/
def Partway (bytes : List UInt8) (p start : ℕ) (complete : Prop) (response : List UInt8) (x : Conn) : Prop :=
  match x.pc with
  | .rewind => response = [] ∧ x.fPos = start
  | .read => response ++ bytes.drop x.fPos = bytes.drop p
  | .send => response ++ x.readbuf ++ bytes.drop x.fPos = bytes.drop p
  | .unlock => response ++ bytes.drop x.fPos = bytes.drop p ∧ (complete → bytes.drop x.fPos = [])
  | _ => False

theorem Partway.progress {bytes response : List UInt8} {p start : ℕ} {complete : Prop} {x : Conn}
    (h : Partway bytes p start complete response x) :
    response <+: bytes.drop p ∧ (x.pc = .unlock → complete → response = bytes.drop p) := by
  unfold Partway at h
  split at h
  · obtain ⟨rfl,-⟩ := h
    exact ⟨List.nil_prefix,by simp_all⟩
  · exact ⟨⟨_,h⟩,by simp_all⟩
  · exact ⟨⟨_,by rwa [List.append_assoc] at h⟩,by simp_all⟩
  · obtain ⟨heq,hall⟩ := h
    refine ⟨⟨_,heq⟩,fun _ hc => ?_⟩
    rwa [hall hc,List.append_nil] at heq
  · exact h.elim

/-- Where the response starts: the driver is not rewound, the file is, if lseek works. -/
def startOf (charDevice rewound : Bool) (fPos : ℕ) : ℕ := if charDevice || !rewound then fPos else 0

theorem adjust_set {charDevice ok : Bool} {d : DataFile} {fd rc : ℤ} {fPos pos : ℕ}
    (hfd : charDevice = false → 0 ≤ fd) (h : adjustDatafilePos charDevice ok d fd fPos 0 .set = (rc,pos)) :
    pos = startOf charDevice ok fPos := by
  cases charDevice with
  | true =>
    cases h
    rfl
  | false =>
    have hge := not_lt.mpr (hfd rfl)
    cases ok with
    | false =>
      have hpos : -1 = rc ∧ fPos = pos := by simpa [adjustDatafilePos] using h
      simp [startOf,hpos.2]
    | true =>
      have hpos : intOf 0 = rc ∧ 0 = pos := by simpa [adjustDatafilePos,hge] using h
      simp [startOf,← hpos.2]

theorem HandlerStep.partway {charDevice rewound : Bool} {c start : ℕ} {sh sh' : Shared} {x x' : Conn}
    {m : Move} {before response : List UInt8} {complete : Prop}
    (h : HandlerStep charDevice c sh x m x' sh') (hd : charDevice = true → HoldsDevice sh.data)
    (hgo : goesOn c ⟨.handler c,m⟩ = true)
    (hrewind : charDevice = false → ∀ r, m = .call (.rewind r) → r = rewound)
    (hread : complete → ∀ env, m = .call (.read env) → readSucceeds charDevice env = true)
    (hsend : ∀ rc, m = .call (.send rc) → rc = x.readbuf.length) (hfd : complete → 0 ≤ x.dataFd)
    (hplain : charDevice = false → 0 ≤ x.dataFd)
    (hsent : sent c sh.log = before ++ response)
    (hp : Partway (content charDevice sh.data) (startOf charDevice rewound start) start complete response x) :
    sh'.data = sh.data ∧ sh'.mutex = sh.mutex ∧ x'.dataFd = x.dataFd ∧ ∃ response',
      sent c sh'.log = before ++ response' ∧
      Partway (content charDevice sh.data) (startOf charDevice rewound start) start complete response' x' := by
  cases h with
  | syslog | requestCancel => exact ⟨rfl,rfl,rfl,response,hsent,hp⟩
  | cancelInCleanup | cancel => simp [goesOn] at hgo
  | rewind hlogs hpc hadjust =>
    simp only [Partway,hpc] at hp
    obtain ⟨rfl,rfl⟩ := hp
    refine ⟨rfl,rfl,rfl,[],hsent,?_⟩
    simp only [Partway,List.nil_append]
    rw [adjust_set hplain hadjust]
    cases charDevice with
    | true => rfl
    | false => rw [hrewind rfl _ rfl]
  | read hlogs hpc hreads hm =>
    simp only [Partway,hpc] at hp
    have hspec := (readDatafile_spec hd hreads).1
    refine ⟨rfl,rfl,rfl,response,hsent,?_⟩
    simp only [Partway]
    rw [List.append_assoc,hspec,hp]
  | readEnd hlogs hpc hreads hm =>
    simp only [Partway,hpc] at hp
    obtain ⟨hspec,hend⟩ := readDatafile_spec hd hreads
    obtain ⟨rfl,hall⟩ := hend hm
    refine ⟨rfl,rfl,rfl,response,hsent,?_⟩
    simp only [Partway]
    rw [List.nil_append] at hspec
    exact ⟨by rw [hspec,hp],fun hc => hall (hread hc _ rfl) (hfd hc)⟩
  | sendFailed hlogs hpc hrc =>
    have hwhole := hsend _ rfl
    omega
  | send hlogs hpc hrc hle =>
    obtain rfl := hsend _ rfl
    simp only [Partway,hpc] at hp
    refine ⟨rfl,rfl,rfl,response ++ x.readbuf,by simp [hsent],?_⟩
    simpa [Partway] using hp
  | unlock | unlockFailed => simp [goesOn] at hgo
  | stage hlogs hpc => simp [Partway,hpc] at hp
  | accept hpc => simp [Partway,hpc] at hp
  | refuse hpc => simp [Partway,hpc] at hp
  | _ => simp_all [Partway]

/-- A regular file that could not be opened is not appended to. -/
def SeekableAt : (i : Thread) → Shared → Local i → Prop
  | .handler _ => fun _ (x : Conn) =>
    x.pc ∈ [Pc.stage,.lock,.append,.rewind,.read,.send,.unlock] → 0 ≤ x.dataFd
  | .timer _ => fun _ _ => True

theorem step_seekable {s s' : Sys} {l : Label} (hs : Everywhere SeekableAt s)
    (h : step (move false) s l = .ok s') : Everywhere SeekableAt s' := by
  refine everywhere_of_step (fun _ _ _ => trivial) ?_ (fun c _ _ _ _ _ _ => hs (.handler c)) h
  rintro c m x sh rfl hstep
  have hc : SeekableAt (.handler c) s.shared (s.conn c) := hs (.handler c)
  simp only [SeekableAt] at hc ⊢
  cases hstep with
  | seek hlogs hpc hadjust hrc =>
    intro _
    simp only [adjustDatafilePos,Bool.false_eq_true,if_false] at hadjust
    split at hadjust
    · cases hadjust
      exact absurd hrc (lt_irrefl _)
    · rename_i hok
      exact not_lt.mp (fun hfd => hok (Or.inl hfd))
  | stage hlogs hpc | lock hlogs hpc | append hlogs hpc | rewind hlogs hpc | read hlogs hpc
  | readEnd hlogs hpc | send hlogs hpc => exact fun _ => hc (by simp [hpc])
  | syslog | requestCancel => exact hc
  | _ => simp

theorem visits_seekable {ls : List Label} {s : Sys} (h : Visits (move false) boot ls s) :
    Everywhere SeekableAt s := by
  refine h.always ?_ (fun _ _ _ hs hstep => step_seekable hs hstep)
  intro i
  cases i <;> simp [SeekableAt,boot,Conn.fresh]

theorem appended_state {charDevice : Bool} {s₀ s₁ : Sys} {c : ℕ} {env : AppendEnv}
    (happend : step (move charDevice) s₀ ⟨.handler c,.call (.append env)⟩ = .ok s₁) :
    (s₁.conn c).pc = .rewind ∧ (s₁.conn c).dataFd = (s₀.conn c).dataFd ∧
      ∃ payload r, cstr (s₀.conn c).buffer = some payload ∧
        appendDatafile charDevice env s₀.shared.data (s₀.conn c).dataFd (s₀.conn c).fPos (s₀.conn c).buffer
          (intOf payload.length) = .ok r ∧ s₁.shared.data = r.data ∧ (s₁.conn c).fPos = r.fPos := by
  obtain ⟨x,sh,hmove,rfl⟩ := step_ok_iff.mp happend
  cases handlerStep_of_move hmove with
  | append hlogs hpc hpayload hdata =>
    exact ⟨by simp [Sys.conn],by simp [Sys.conn],_,_,hpayload,hdata,rfl,by simp [Sys.conn]⟩

theorem appended_owns {charDevice : Bool} {pre : List Label} {s₀ s₁ : Sys} {c : ℕ} {env : AppendEnv}
    (hpre : run (move charDevice) boot pre = .ok s₀)
    (happend : step (move charDevice) s₀ ⟨.handler c,.call (.append env)⟩ = .ok s₁) :
    Everywhere LockingAt s₁ ∧ s₁.shared.mutex = some (.handler c) := by
  have hlock := visits_locking (Visits.of_run (run_snoc.mpr ⟨s₀,hpre,happend⟩))
  have hl : Locking c s₁.shared (s₁.conn c) := hlock (.handler c)
  exact ⟨hlock,hl.inside (by rw [(appended_state happend).1]; rfl)⟩

/-- The data file is open and no read of the handler c fails. -/
def ReadsSucceed (charDevice : Bool) (c : ℕ) (mid : List Label) (fd : ℤ) : Prop :=
  0 ≤ fd ∧ ∀ env, ⟨.handler c,.call (.read env)⟩ ∈ mid → readSucceeds charDevice env = true

/-- The handler that answers, and its view: the data file and what was sent to its client. -/
structure Answering (charDevice : Bool) (d : DataFile) (before : List UInt8) (fd : ℤ) (p start : ℕ)
    (complete : Prop) (view : DataFile × List UInt8) (x : Conn) : Prop where
  data : view.1 = d
  fd : x.dataFd = fd
  partway : ∃ response, view.2 = before ++ response ∧
    Partway (content charDevice d) p start complete response x

theorem view_of_other {charDevice : Bool} {c : ℕ} {s s' : Sys} {l : Label} (hs : Everywhere LockingAt s)
    (hown : s.shared.mutex = some (.handler c)) (hl : .handler c ≠ l.1)
    (h : step (move charDevice) s l = .ok s') :
    (s'.shared.data,sent c s'.shared.log) = (s.shared.data,sent c s.shared.log) := by
  have hdata : s'.shared.data = s.shared.data := by
    by_contra hne
    have howner := (move_data_owner hs h hne).2
    rw [hown] at howner
    exact hl (Option.some.inj howner)
  obtain ⟨i,a⟩ := l
  obtain ⟨x,sh,hmove,rfl⟩ := step_ok_iff.mp h
  exact Prod.ext hdata (sent_move hmove hl)

/-- A handler that has appended: it owns the mutex and the data file is still d, or it
has ended without the mutex. -/
def Behind (c : ℕ) (d : DataFile) (sh : Shared) (x : Conn) : Prop :=
  (x.pc ∈ [Pc.rewind,.read,.send,.unlock,.closeClient,.closeData,.release] ∧
    sh.mutex = some (.handler c) ∧ sh.data = d) ∨
  (x.pc = .done ∧ x.logs = 0 ∧ sh.mutex ≠ some (.handler c))

theorem HandlerStep.behind {charDevice : Bool} {c : ℕ} {sh sh' : Shared} {x x' : Conn} {m : Move}
    {d : DataFile} (h : HandlerStep charDevice c sh x m x' sh') (hgo : goesOn c ⟨.handler c,m⟩ = true)
    (hx : Behind c d sh x) : Behind c d sh' x' := by
  obtain ⟨hpc,hown,hdata⟩ | ⟨hpc,hlogs,hown⟩ := hx
  · cases h with
    | syslog | requestCancel => exact .inl ⟨hpc,hown,hdata⟩
    | cancelInCleanup | cancel | unlock | unlockFailed => simp [goesOn] at hgo
    | release hlogs => exact .inr ⟨rfl,hlogs,by simp [hown]⟩
    | rewind | read | readEnd | sendFailed | send | closeClient | closeData | skipData =>
      exact .inl ⟨by simp,hown,hdata⟩
    | _ => simp_all
  · cases h with
    | requestCancel => exact .inr ⟨hpc,hlogs,hown⟩
    | cancelInCleanup | cancel => simp [goesOn] at hgo
    | _ => simp_all

theorem step_behind {charDevice : Bool} {s s' : Sys} {l : Label} {c : ℕ} {d : DataFile}
    (hlock : Everywhere LockingAt s) (hs : Behind c d s.shared (s.conn c)) (hgo : goesOn c l = true)
    (h : step (move charDevice) s l = .ok s') : Behind c d s'.shared (s'.conn c) := by
  obtain ⟨i,m⟩ := l
  obtain ⟨x,sh,hmove,rfl⟩ := step_ok_iff.mp h
  by_cases hi : .handler c = i
  · subst hi
    simpa [Sys.conn] using (handlerStep_of_move hmove).behind hgo hs
  · have hmutex := move_mutex_other hmove hi
    simp only [Behind,Sys.conn,Function.update_of_ne hi,ne_eq,hmutex]
    refine hs.imp_left ?_
    rintro ⟨hpc,hown,hdata⟩
    exact ⟨hpc,hown,(congrArg Prod.fst (view_of_other hlock hown hi h)).trans hdata⟩

/-- From its append on the data file stays as it is as long as the handler owns the mutex. -/
theorem data_of_owned {charDevice : Bool} {mid : List Label} {c : ℕ} {s₁ s₂ : Sys}
    (hlock : Everywhere LockingAt s₁) (hpc : (s₁.conn c).pc = .rewind)
    (hown₁ : s₁.shared.mutex = some (.handler c)) (hmid : run (move charDevice) s₁ mid = .ok s₂)
    (hgo : ∀ l ∈ mid, goesOn c l = true) (hown : s₂.shared.mutex = some (.handler c)) :
    s₂.shared.data = s₁.shared.data := by
  have hall := (Visits.of_run hmid).invariant
    (I := fun t : Sys => Everywhere LockingAt t ∧ Behind c s₁.shared.data t.shared (t.conn c))
    (G := fun _ l => goesOn c l = true) ⟨hlock,.inl ⟨by simp [hpc],hown₁,rfl⟩⟩
    (fun _ _ _ ht hl hstep => ⟨step_locking ht.1 hstep,step_behind ht.1 ht.2 hl hstep⟩)
    (fun t l ⟨pre,t',hpre,_⟩ => hgo l (hpre.subset (by simp)))
  obtain ⟨-,-,hdata⟩ | ⟨-,-,hnot⟩ := hall.2
  · exact hdata
  · exact absurd hown hnot

/-- In both builds, after whatever append: as long as the handler owns the mutex nobody
changes the data file. If its sends are complete it owns it up to its unlock and sends the
content from its start on, in order and without a gap; at the unlock it has sent all of
that, if its file is open and no read failed. -/
theorem response_is_rest {charDevice rewound : Bool} {pre mid : List Label} {c : ℕ} {env : AppendEnv}
    {s₀ s₁ s₂ : Sys} (hpre : run (move charDevice) boot pre = .ok s₀)
    (happend : step (move charDevice) s₀ ⟨.handler c,.call (.append env)⟩ = .ok s₁)
    (hmid : run (move charDevice) s₁ mid = .ok s₂) (hgo : ∀ l ∈ mid, goesOn c l = true)
    (hrewind : charDevice = false → ∀ r, ⟨.handler c,.call (.rewind r)⟩ ∈ mid → r = rewound) :
    (s₂.shared.mutex = some (.handler c) → s₂.shared.data = s₁.shared.data) ∧
    ((∀ s rc, Takes (move charDevice) s₁ mid s ⟨.handler c,.call (.send rc)⟩ →
        rc = (Sys.conn s c).readbuf.length) →
      s₂.shared.mutex = some (.handler c) ∧
      ∃ response, sent c s₂.shared.log = sent c s₁.shared.log ++ response ∧
        response <+: (content charDevice s₁.shared.data).drop
          (startOf charDevice rewound (s₁.conn c).fPos) ∧
        ((s₂.conn c).pc = .unlock → ReadsSucceed charDevice c mid (s₁.conn c).dataFd →
          response = (content charDevice s₁.shared.data).drop
            (startOf charDevice rewound (s₁.conn c).fPos))) := by
  have hrun₁ : run (move charDevice) boot (pre ++ [⟨.handler c,.call (.append env)⟩]) = .ok s₁ :=
    run_snoc.mpr ⟨s₀,hpre,happend⟩
  obtain ⟨hlock₁,hown₁⟩ := appended_owns hpre happend
  obtain ⟨hpc₁,-,-⟩ := appended_state happend
  refine ⟨data_of_owned hlock₁ hpc₁ hown₁ hmid hgo,fun hsend => ?_⟩
  have hdevice : charDevice = true → HoldsDevice s₁.shared.data := by
    rintro rfl
    exact visits_holdsDevice (Visits.of_run hrun₁)
  have hplain : charDevice = false → 0 ≤ (s₁.conn c).dataFd := by
    rintro rfl
    have hopen : SeekableAt (.handler c) s₁.shared (s₁.conn c) :=
      visits_seekable (Visits.of_run hrun₁) (.handler c)
    exact hopen (by simp [hpc₁])
  have hrule := @owner_rule _ _ _ _ _ _ _ (move charDevice) Shared.mutex s₁ s₂ mid (.handler c)
    (Everywhere LockingAt) (fun t l => l ∈ mid ∧
      ∀ rc, l = ⟨.handler c,.call (.send rc)⟩ → rc = (Sys.conn t c).readbuf.length)
    (fun sh => (sh.data,sent c sh.log))
    (Answering charDevice s₁.shared.data (sent c s₁.shared.log) (s₁.conn c).dataFd
      (startOf charDevice rewound (s₁.conn c).fPos) (s₁.conn c).fPos
      (ReadsSucceed charDevice c mid (s₁.conn c).dataFd)) keepsTo_mutex
    (fun _ _ _ ht hstep => step_locking ht hstep)
    (fun _ _ _ ht hown hl hstep => view_of_other ht hown hl hstep) ?own ?guard hlock₁ hown₁ ?start hmid
  case own =>
    rintro t m t' ht hown ⟨hdata,hfd,response,hsent,hpart⟩ ⟨hmem,hwhole⟩ hstep
    obtain ⟨x,sh,hmove,rfl⟩ := step_ok_iff.mp hstep
    have hdata' : t.shared.data = s₁.shared.data := hdata
    rw [← hdata'] at hpart hdevice
    obtain ⟨hsame,hmutex,hfd',response',hsent',hpart'⟩ :=
      (handlerStep_of_move hmove).partway hdevice (hgo _ hmem) (by rintro hcd r rfl; exact hrewind hcd r hmem)
        (by rintro hc renv rfl; exact hc.2 renv hmem) (by rintro rc rfl; exact hwhole rc rfl)
        (by rw [hfd]; exact fun hc => hc.1) (by rw [hfd]; exact hplain) hsent hpart
    refine ⟨hmutex.trans hown,hsame.trans hdata',?_,response',hsent',?_⟩
    · simpa using hfd'.trans hfd
    · simpa [hdata'] using hpart'
  case guard =>
    rintro t l ⟨pre',t',hpre',hrest⟩
    refine ⟨hpre'.subset (by simp),?_⟩
    rintro rc rfl
    exact hsend t rc ⟨pre',t',hpre',hrest⟩
  case start =>
    refine ⟨rfl,rfl,[],by simp,?_⟩
    change Partway _ _ _ _ _ (s₁.conn c)
    simp [Partway,hpc₁]
  obtain ⟨-,hown,-,-,response,hsent,hpart⟩ := hrule
  obtain ⟨hfirst,hall⟩ := hpart.progress
  exact ⟨hown,response,hsent,hfirst,hall⟩

theorem isPrefix_drop_writeAt (file bytes : List UInt8) (pos : ℕ) :
    bytes <+: (writeAt file pos bytes).drop pos := by
  by_cases hne : bytes = []
  · rw [hne]
    exact List.nil_prefix
  · have hlen : (file.take pos ++ List.replicate (pos - file.length) 0).length = pos := by
      simp only [List.length_append,List.length_take,List.length_replicate]
      omega
    rw [writeAt,if_neg hne,List.append_assoc _ bytes,List.drop_left' hlen]
    apply List.prefix_append

theorem fPos_of_append {env : AppendEnv} {d : DataFile} {fd size : ℤ} {fPos : ℕ} {buf : List UInt8}
    {r : AppendResult} (h : appendDatafile false env d fd fPos buf size = .ok r) :
    r.fPos = fPos + r.accepted.length := by
  simp only [appendDatafile,Bool.false_eq_true,if_false,Except.ok.injEq] at h
  subst h
  unfold writeFile
  split <;> simp

/-- With the regular file: what the handler just wrote stands in the file at its own
offset, and nobody changes the file as long as it owns the mutex. If its sends are
complete, it owns it up to its unlock and sends the file as it is then, from the
beginning, or from behind its own write if the lseek of send_response failed. -/
theorem file_response {pre mid : List Label} {c : ℕ} {env : AppendEnv} {s₀ s₁ s₂ : Sys}
    (hpre : run (move false) boot pre = .ok s₀)
    (happend : step (move false) s₀ ⟨.handler c,.call (.append env)⟩ = .ok s₁)
    (hmid : run (move false) s₁ mid = .ok s₂) (hgo : ∀ l ∈ mid, goesOn c l = true) :
    (∃ payload accepted, s₁.shared.log = s₀.shared.log ++ [.appended (.handler c) payload accepted] ∧
      accepted <+: s₁.shared.data.file.drop (s₀.conn c).fPos ∧
      (s₁.conn c).fPos = (s₀.conn c).fPos + accepted.length) ∧
    (s₂.shared.mutex = some (.handler c) → s₂.shared.data = s₁.shared.data) ∧
    ∀ rewound : Bool, (∀ r, ⟨.handler c,.call (.rewind r)⟩ ∈ mid → r = rewound) →
      (∀ s rc, Takes (move false) s₁ mid s ⟨.handler c,.call (.send rc)⟩ →
        rc = (Sys.conn s c).readbuf.length) →
      s₂.shared.mutex = some (.handler c) ∧
      ∃ response, sent c s₂.shared.log = sent c s₁.shared.log ++ response ∧
        response <+: s₁.shared.data.file.drop (if rewound then 0 else (s₁.conn c).fPos) ∧
        ((s₂.conn c).pc = .unlock →
          (∀ renv : ReadOutcome, ⟨.handler c,.call (.read renv)⟩ ∈ mid → renv.more ≠ none) →
          response = s₁.shared.data.file.drop (if rewound then 0 else (s₁.conn c).fPos)) := by
  have hrun₁ := Visits.of_run (run_snoc.mpr ⟨s₀,hpre,happend⟩)
  obtain ⟨hlock₁,hown₁⟩ := appended_owns hpre happend
  have hpc₁ : (s₁.conn c).pc = .rewind := (appended_state happend).1
  have hopen : 0 ≤ (s₁.conn c).dataFd := by
    have hseek : SeekableAt (.handler c) s₁.shared (s₁.conn c) := visits_seekable hrun₁ (.handler c)
    exact hseek (by simp [hpc₁])
  refine ⟨?_,data_of_owned hlock₁ hpc₁ hown₁ hmid hgo,fun rewound hrewind hsend => ?_⟩
  · obtain ⟨x,sh,hmove,rfl⟩ := step_ok_iff.mp happend
    cases handlerStep_of_move hmove with
    | append hlogs hpc hpayload hdata =>
      refine ⟨_,_,rfl,?_,?_⟩
      · rw [Shared.record_data,appendDatafile_plain hdata]
        apply isPrefix_drop_writeAt
      · simpa [Sys.conn] using fPos_of_append hdata
  · obtain ⟨-,hresp⟩ := response_is_rest hpre happend hmid hgo (fun _ => hrewind)
    obtain ⟨hown,response,hsent,hfirst,hall⟩ := hresp hsend
    have hstart : startOf false rewound (s₁.conn c).fPos = if rewound then 0 else (s₁.conn c).fPos := by
      cases rewound <;> rfl
    rw [hstart] at hfirst hall
    refine ⟨hown,response,hsent,hfirst,fun hpc hreads => hall hpc ⟨hopen,fun renv hmem => ?_⟩⟩
    simpa [readSucceeds,Option.isSome_iff_ne_none] using hreads renv hmem

set_option maxRecDepth 4000

/-- A client appends "a\n" to the regular file; another one comes to its lock while the
first is answered. -/
def fileResponsePre : List Label :=
  accepted 0 4 ++ accepted 1 5 ++
    calls 0 [.recv (some [97,10]),.openFile 6,.seek true,.stage grantingRealloc,.lock 0]

def fileResponseMid : List Label :=
  calls 0 [.rewind true,.read grantingRead] ++
  calls 1 [.recv (some [98,10]),.openFile 7,.seek true,.stage grantingRealloc] ++
  calls 0 [.send 2,.read grantingRead]

theorem fileResponse_sent : ∃ s₁ s₂ : Sys,
    run (move false) boot (fileResponsePre ++ [⟨.handler 0,.call (.append grantingAppend)⟩]) = .ok s₁ ∧
    run (move false) s₁ fileResponseMid = .ok s₂ ∧ (s₂.conn 0).pc = .unlock ∧
    sent 0 s₂.shared.log = sent 0 s₁.shared.log ++ [97,10] := by
  obtain ⟨s₁,hrun₁,h₁⟩ := exists_of_returns
    (show returns (fun s : Sys => s.shared.data.file = [97,10] ∧
        returns (fun t : Sys => (t.conn 0).pc = .unlock) (run (move false) s fileResponseMid) = true ∧
        stepsPass (move false) granted s fileResponseMid = true)
      (run (move false) boot (fileResponsePre ++ [⟨.handler 0,.call (.append grantingAppend)⟩])) = true by
        decide)
  obtain ⟨hfile,hmid,hpass⟩ := of_decide_eq_true h₁
  obtain ⟨s₂,hrun₂,h₂⟩ := exists_of_returns hmid
  obtain ⟨s₀,hpre,happend⟩ := run_snoc.mp hrun₁
  obtain ⟨-,-,hresp⟩ := file_response hpre happend hrun₂ (by decide)
  obtain ⟨-,response,hsent,-,hall⟩ := hresp true (by simp [fileResponseMid,calls])
    (fun s rc h => of_decide_eq_true (pass_of_takes hpass h))
  refine ⟨s₁,s₂,hrun₁,hrun₂,of_decide_eq_true h₂,?_⟩
  rw [hsent,hall (of_decide_eq_true h₂) (by simp [fileResponseMid,calls,grantingRead]),hfile]
  rfl

end Aesd.Server
