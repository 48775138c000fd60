import Aesd.Server.LineBuffer

/-! # What becomes of the received bytes

After every iteration of a handler's loop the strings it appended, followed by the one
it holds, are the bytes it received, and buflen is the length of the held string. An
iteration that leaves the loop because a call failed may drop its chunk.
-/
namespace Aesd.Server
open CharDevice Kernel CString Interleaving Lines

/-- A call whose failure ends the loop succeeds. -/
def Conn.succeeds (charDevice : Bool) (sh : Shared) (x : Conn) : Move → Bool
  | .call (.seek ok) => -1 < (adjustDatafilePos charDevice ok sh.data x.dataFd x.fPos 0 .fromEnd).1
  | .call (.lock rc) => rc = 0
  | .call (.send rc) => 0 ≤ rc
  | _ => true

/-- The step is not a failed call of the handler c. -/
def callsSucceed (charDevice : Bool) (c : ℕ) (s : Sys) : Label → Bool
  | ⟨.handler c',m⟩ => c' ≠ c ∨ (s.conn c').succeeds charDevice s.shared m = true
  | ⟨.timer _,_⟩ => true

/-- The handler is about to receive, or has left its loop without being cancelled. -/
def Conn.endsIteration (x : Conn) : Prop := x.pc = .recv ∨ (x.pc = .closeClient ∧ x.cancelled = false)

/-- The string that a handler holds between two chunks, or held when recv ended its loop. -/
def Kept (x : Conn) (cs ps : List (List UInt8)) : Prop :=
  match x.pc with
  | .recv | .openFile | .seek | .stage => ∃ held, cstr x.buffer = some held ∧ x.buflen.toNat = held.length
  | .closeClient => x.cancelled = false →
    ∃ held, cstr x.buffer = some held ∧ x.buflen.toNat = held.length ∧ feeds cs = (ps,held)
  | _ => True

theorem HandlerStep.kept {charDevice : Bool} {self : ℕ} {sh sh' : Shared} {x x' : Conn} {m : Move}
    (h : HandlerStep charDevice self sh x m x' sh') (hnul : 0 ∉ received self sh.log)
    (hframed : Framed x (chunks self sh.log) (payloads self sh.log)) (hsized : Sized x)
    (hlock : Locking self sh x) (hok : x.succeeds charDevice sh m = true)
    (hx : Kept x (chunks self sh.log) (payloads self sh.log)) :
    Kept x' (chunks self sh'.log) (payloads self sh'.log) := by
  have hsized' := h.sized hsized
  cases h with
  | syslog | requestCancel => simpa [Kept] using hx
  | cancel => simp [Kept]
  | start hlogs hpc =>
    simp only [Framed,hpc] at hframed
    exact ⟨[],cstr_set_zero hframed.1,rfl⟩
  | recvEnd hlogs hpc =>
    simp only [Framed,hpc] at hframed
    simp only [Kept,hpc] at hx ⊢
    obtain ⟨held,hbuf,hfeeds⟩ := hframed
    obtain ⟨held',hbuf',hcount⟩ := hx
    obtain rfl := Option.some.inj (hbuf.symm.trans hbuf')
    exact fun _ => ⟨held,hbuf,hcount,hfeeds⟩
  | recv hlogs hpc | openFailed hlogs hpc | openFile hlogs hpc | seek hlogs hpc =>
    simpa [Kept,hpc] using hx
  | seekFailed hlogs hpc hadjust hrc =>
    simp only [Conn.succeeds,hadjust,decide_eq_true_eq] at hok
    omega
  | stage hlogs hpc happend =>
    simp only [Framed,hpc] at hframed
    simp only [Kept,hpc] at hx
    obtain ⟨held,before,hbuf,hcs,-⟩ := hframed
    obtain ⟨held',hbuf',hcount⟩ := hx
    obtain rfl := Option.some.inj (hbuf.symm.trans hbuf')
    by_cases hn : newline ∈ x.recvBuf
    · simp [Kept,(x.hasNl_iff).mpr hn]
    · have hrecv : 0 ∉ x.recvBuf := by
        intro h0
        exact hnul (by rw [received,hcs]; simp [h0])
      have hstr := framed_stage hrecv hbuf happend
      rw [takeLine_of_notMem hn] at hstr
      have hno : x.hasNl = false := Bool.eq_false_iff.mpr (mt x.hasNl_iff.mp hn)
      simp only [Kept,hno,Bool.false_eq_true,if_false]
      refine ⟨_,hstr,?_⟩
      -- the string is in a block, so its length is no count that wraps
      have hfits := length_lt_of_cstr hstr
      have hblock := hsized'.block
      have hmax := hsized'.max
      simp only [userSpace] at hblock hmax
      rw [List.length_append] at hfits ⊢
      rw [Conn.currlen_of_notMem hn,toNat_add_ofNat (by omega),hcount]
  | lockFailed hlogs hpc hrc => simp [Conn.succeeds,hrc] at hok
  | sendFailed hlogs hpc hrc =>
    simp only [Conn.succeeds,decide_eq_true_eq] at hok
    omega
  | unlockFailed hlogs hpc hown => exact absurd (hlock.inside (by simp [hpc,Pc.zone])) hown
  | rest hlogs hpc happend =>
    simp only [Framed,hpc] at hframed
    obtain ⟨hbuf,hfeeds⟩ := hframed
    have hleft := notMem_held hnul
    rw [hfeeds] at hleft
    refine ⟨_,framed_rest hleft hbuf happend,?_⟩
    have hchunk := hsized.chunk
    simp only [bufferSize] at hchunk
    rw [UInt64.toNat_ofNat',Conn.length_leftover]
    omega
  | _ => simp [Kept]

theorem step_kept {charDevice : Bool} {s s' : Sys} {l : Label} {c : ℕ} (hf : Everywhere FramedAt s)
    (hz : Everywhere SizedAt s) (hlock : Everywhere LockingAt s)
    (hok : callsSucceed charDevice c s l = true) (h : step (move charDevice) s l = .ok s')
    (hnul : 0 ∉ received c s.shared.log)
    (hs : Kept (s.conn c) (chunks c s.shared.log) (payloads c s.shared.log)) :
    Kept (s'.conn c) (chunks c s'.shared.log) (payloads c s'.shared.log) := by
  obtain ⟨i,a⟩ := l
  obtain ⟨x,sh,hmove,rfl⟩ := step_ok_iff.mp h
  by_cases hi : .handler c = i
  · subst hi
    obtain ⟨-,-,hframed⟩ := hf (.handler c)
    have hown : (s.conn c).succeeds charDevice s.shared a = true := by
      simpa [callsSucceed] using hok
    simpa [Sys.conn] using
      (handlerStep_of_move hmove).kept hnul (hframed hnul) (hz (.handler c)) (hlock (.handler c)) hown hs
  · simpa [Sys.conn,hi,chunks_move hmove hi,payloads_move hmove hi] using hs

theorem visits_kept {charDevice : Bool} {ls : List Label} {c : ℕ}
    (hok : ∀ s l, Takes (move charDevice) boot ls s l → callsSucceed charDevice c s l = true) {s : Sys}
    (hs : Visits (move charDevice) boot ls s) (hnul : 0 ∉ received c s.shared.log) :
    Kept (s.conn c) (chunks c s.shared.log) (payloads c s.shared.log) := by
  refine hs.invariant
    (I := fun t : Sys => 0 ∉ received c t.shared.log →
      Kept (t.conn c) (chunks c t.shared.log) (payloads c t.shared.log))
    (G := fun (t : Sys) l => Visits (move charDevice) boot ls t ∧ callsSucceed charDevice c t l = true) ?_ ?_ ?_
    hnul
  · intro _
    simp [boot,Sys.conn,Conn.fresh,Kept]
  · intro t l t' hI hG hstep hnul'
    have hbefore : 0 ∉ received c t.shared.log := by
      obtain ⟨more,hmore⟩ := step_log hstep
      rw [← hmore,received_append] at hnul'
      exact fun h0 => hnul' (List.mem_append_left _ h0)
    exact step_kept (visits_framed hG.1) (visits_sized hG.1) (visits_locking hG.1) hG.2 hstep hbefore
      (hI hbefore)
  · exact fun t l htakes => ⟨htakes.visits,hok t l htakes⟩

theorem Finished.getLast? {held : List UInt8} (h : Finished held) : held.getLast? = some newline := by
  obtain ⟨a,b,rfl,-,-⟩ := h
  simp

/-- A handler whose calls succeed loses, doubles and moves no byte of a stream without
NUL bytes. -/
theorem stream_kept {charDevice : Bool} {ls : List Label} {c : ℕ}
    (hok : ∀ s l, Takes (move charDevice) boot ls s l → callsSucceed charDevice c s l = true) {s : Sys}
    (hs : Visits (move charDevice) boot ls s) (hnul : 0 ∉ received c s.shared.log)
    (hend : (s.conn c).endsIteration) :
    ∃ held, cstr (s.conn c).buffer = some held ∧
      (payloads c s.shared.log).flatten ++ held = received c s.shared.log ∧
      (∀ p ∈ payloads c s.shared.log, p.getLast? = some newline) ∧
      (s.conn c).buflen.toNat = held.length := by
  obtain ⟨-,hlen,hframed⟩ : FramedAt (.handler c) s.shared (s.conn c) := visits_framed hs (.handler c)
  have hframed := hframed hnul
  have hkept := visits_kept hok hs hnul
  have hsplit : ∃ held, cstr (s.conn c).buffer = some held ∧ (s.conn c).buflen.toNat = held.length ∧
      feeds (chunks c s.shared.log) = (payloads c s.shared.log,held) := by
    rcases hend with hpc | ⟨hpc,hlive⟩
    · simp only [Framed,hpc] at hframed
      simp only [Kept,hpc] at hkept
      obtain ⟨held,hbuf,hfeeds⟩ := hframed
      obtain ⟨held',hbuf',hcount⟩ := hkept
      obtain rfl := Option.some.inj (hbuf.symm.trans hbuf')
      exact ⟨held,hbuf,hcount,hfeeds⟩
    · simp only [Kept,hpc] at hkept
      exact hkept hlive
  obtain ⟨held,hbuf,hcount,hfeeds⟩ := hsplit
  have hflat := feeds_flatten (chunks c s.shared.log)
  have hshape := (feeds_shape hlen).1
  rw [hfeeds] at hflat hshape
  exact ⟨held,hbuf,hflat,fun p hp => (hshape p hp).getLast?,hcount⟩

set_option maxRecDepth 4000

/-- A client sends "a", a newline and "b" in one chunk. -/
def keptRun : List Label := accepted 0 4 ++ calls 0 (chunkCalls [97,10,98] 5 [2])

theorem keptRun_kept : ∃ s : Sys, run (move false) boot keptRun = .ok s ∧
    received 0 s.shared.log = [97,10,98] ∧ payloads 0 s.shared.log = [[97,10]] ∧
    ∃ held, cstr (s.conn 0).buffer = some held ∧ [97,10] ++ held = [97,10,98] ∧
      (s.conn 0).buflen.toNat = held.length := by
  obtain ⟨s,hrun,hend⟩ := exists_of_returns
    (show returns (fun s : Sys => received 0 s.shared.log = [97,10,98] ∧
      payloads 0 s.shared.log = [[97,10]] ∧ (s.conn 0).pc = .recv) (run (move false) boot keptRun) = true by
        decide)
  obtain ⟨hreceived,hpayloads,hpc⟩ := of_decide_eq_true hend
  have hpass : stepsPass (move false) (callsSucceed false 0) boot keptRun = true := by decide
  obtain ⟨held,hbuf,hflat,-,hcount⟩ := @stream_kept false keptRun 0
    (fun _ _ h => pass_of_takes hpass h) s (Visits.of_run hrun) (by simp [hreceived]) (Or.inl hpc)
  rw [hpayloads,hreceived] at hflat
  exact ⟨s,hrun,hreceived,hpayloads,held,hbuf,by simpa using hflat,hcount⟩

/-- lseek fails in the only iteration, after everything else has succeeded. -/
def seekFailedRun : List Label :=
  accepted 0 4 ++ calls 0 [.recv (some [97,10]),.openFile 5,.seek false]

theorem seekFailedRun_drops : ∃ s : Sys, run (move false) boot seekFailedRun = .ok s ∧
    (s.conn 0).endsIteration ∧ received 0 s.shared.log = [97,10] ∧ payloads 0 s.shared.log = [] ∧
    cstr (s.conn 0).buffer = some [] ∧
    ¬ ∃ held, cstr (s.conn 0).buffer = some held ∧
      (payloads 0 s.shared.log).flatten ++ held = received 0 s.shared.log := by
  obtain ⟨s,hrun,hend⟩ := exists_of_returns
    (show returns (fun s : Sys => ((s.conn 0).pc = .closeClient ∧ (s.conn 0).cancelled = false) ∧
      received 0 s.shared.log = [97,10] ∧ payloads 0 s.shared.log = [] ∧
      cstr (s.conn 0).buffer = some []) (run (move false) boot seekFailedRun) = true by decide)
  obtain ⟨hleft,hreceived,hpayloads,hbuf⟩ := of_decide_eq_true hend
  refine ⟨s,hrun,Or.inr hleft,hreceived,hpayloads,hbuf,?_⟩
  rintro ⟨held,hheld,hflat⟩
  obtain rfl := Option.some.inj (hbuf.symm.trans hheld)
  simp [hpayloads,hreceived] at hflat

end Aesd.Server
