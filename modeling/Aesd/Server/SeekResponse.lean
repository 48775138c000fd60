import Aesd.Driver.SessionRefinement
import Aesd.Server.ResponseRest
import Aesd.Server.SeekCommand

/-! # The response to a seek command

A client that sends AESDCHAR_IOCSEEKTO:X,Y gets the content from byte Y of entry X on.
The driver cuts X to eight bits, and behind the wrap of its array it jumps past the end,
so that nothing is sent. A refused command is no error for the client: it gets
everything.
-/
namespace Aesd.Server
open CharDevice Kernel CString Interleaving Positions CircularBuffer

/-- What the client of a seek command gets. -/
def seekResult (k : Driver) (granted : Bool) (X Y : ℕ) : List UInt8 :=
  if granted ∧ StoredAt k (X % 256) Y then
    if k.dev.circularBuffer.outOffs.toNat + X % 256 < 10 then
      ((contents k).drop (X % 256)).flatten.drop Y
    else []
  else (contents k).flatten

theorem drop_seekDevice {d : DataFile} {env : AppendEnv} {fd : ℤ} {seekto : AesdSeekto}
    (hd : HoldsDevice d) (hfd : 0 ≤ fd) :
    (seekDevice env d fd 0 seekto).data = d ∧
    (contents d.device).flatten.drop (seekDevice env d fd 0 seekto).fPos =
      seekResult d.device (env.ioctlCopy && env.ioctlLock) seekto.writeCmd.toNat
        seekto.writeCmdOffset.toNat := by
  obtain ⟨tmp,es,hk⟩ := hd
  refine ⟨by unfold seekDevice; split <;> rfl,?_⟩
  rw [seekDevice,if_neg (not_lt.mpr hfd),ioctl_seekto]
  simp only [seekResult]
  cases env.ioctlCopy with
  | false => simp
  | true =>
    cases env.ioctlLock with
    | false => simp
    | true =>
      simp only [Bool.not_true,Bool.false_eq_true,if_false,Bool.and_self,true_and,jmp_eq hk]
      by_cases hin : StoredAt d.device (seekto.writeCmd.toNat % 256) seekto.writeCmdOffset.toNat
      · simp only [hin,if_true]
        split
        · rw [if_neg (by omega)]
          simp only [show ∀ n m : ℕ, ((n : ℤ) + m).toNat = n + m by omega]
          rw [← List.drop_drop,bytesBefore,List.drop_sum_flatten]
        · rw [if_neg (by omega)]
          simp only [show ∀ n m : ℕ, ((n : ℤ) + m).toNat = n + m by omega]
          exact List.drop_eq_nil_of_le (by omega)
      · simp only [hin,if_false]
        rw [if_pos (by decide)]
        rfl

/-- With the char device the descriptor of a handler stands at zero until its append. -/
def AtStart : (i : Thread) → Shared → Local i → Prop
  | .handler _ => fun _ (x : Conn) => x.pc ∈ [Pc.seek,.stage,.lock,.append] → x.fPos = 0
  | .timer _ => fun _ _ => True

theorem step_atStart {s s' : Sys} {l : Label} (hs : Everywhere AtStart s)
    (h : step (move true) s l = .ok s') : Everywhere AtStart s' := by
  refine everywhere_of_step (fun _ _ _ => trivial) ?_ (fun c _ _ _ _ _ _ => hs (.handler c)) h
  rintro c m x sh rfl hstep
  have hc : AtStart (.handler c) s.shared (s.conn c) := hs (.handler c)
  simp only [AtStart] at hc ⊢
  cases hstep with
  | openFailed | openFile => exact fun _ => rfl
  | seek hlogs hpc hadjust =>
    intro _
    cases hadjust
    exact hc (by simp [hpc])
  | stage hlogs hpc | lock hlogs hpc => exact fun _ => hc (by simp [hpc])
  | syslog | requestCancel => exact hc
  | _ => simp

theorem visits_atStart {ls : List Label} {s : Sys} (h : Visits (move true) boot ls s) :
    Everywhere AtStart s := by
  refine h.always ?_ (fun _ _ _ hs hstep => step_atStart hs hstep)
  intro i
  cases i <;> simp [AtStart,boot,Conn.fresh]

/-- A seek command for two numerals that fits into the digit buffer of the parser. -/
structure SeekLine (a b line : List UInt8) : Prop where
  first : Numeral a
  firstFits : decimal a < 2^32
  second : Numeral b
  secondFits : decimal b < 2^32
  short : (a ++ comma :: (b ++ [newline])).length < digitsSize
  eq : line = matchCmd ++ (a ++ comma :: (b ++ [newline]))

theorem SeekLine.parse {a b line buf : List UInt8} (h : SeekLine a b line) (hbuf : cstr buf = some line)
    (x y : UInt32) : parseSeektoCmd x y buf (intOf line.length) =
      .ok (some ⟨UInt32.ofNat (decimal a),UInt32.ofNat (decimal b)⟩) := by
  obtain ⟨ha,hafit,hb,hbfit,hlen,rfl⟩ := h
  have hint : intOf (matchCmd ++ (a ++ comma :: (b ++ [newline]))).length =
      (matchCmd ++ (a ++ comma :: (b ++ [newline]))).length := by
    refine intOf_of_lt ?_
    simp only [digitsSize] at hlen
    rw [List.length_append,show matchCmd.length = 19 from rfl]
    omega
  rw [hint]
  exact parse_of_seekCommand ha hafit hb hbfit hbuf hlen x y

/-- The append of a seek command leaves the device alone and the descriptor where the
client gets its result from. -/
theorem appended_seek {pre : List Label} {c : ℕ} {env : AppendEnv} {s₀ s₁ : Sys} {a b line : List UInt8}
    (hpre : run (move true) boot pre = .ok s₀)
    (happend : step (move true) s₀ ⟨.handler c,.call (.append env)⟩ = .ok s₁)
    (hpayload : cstr (s₀.conn c).buffer = some line) (hline : SeekLine a b line)
    (hfd : 0 ≤ (s₀.conn c).dataFd) :
    s₁.shared.data = s₀.shared.data ∧ (contents s₀.shared.data.device).flatten.drop (s₁.conn c).fPos =
      seekResult s₀.shared.data.device (env.ioctlCopy && env.ioctlLock) (decimal a) (decimal b) := by
  have hpos : (s₀.conn c).fPos = 0 := by
    have hstart : AtStart (.handler c) s₀.shared (s₀.conn c) :=
      visits_atStart (Visits.of_run hpre) (.handler c)
    refine hstart ?_
    obtain ⟨x,sh,hmove,-⟩ := step_ok_iff.mp happend
    cases handlerStep_of_move hmove with
    | append hlogs hpc =>
      change (s₀.locals (.handler c)).pc ∈ _
      simp [hpc]
  obtain ⟨-,-,payload,r,hpayload',happ,hdata,hfPos⟩ := appended_state happend
  obtain rfl := Option.some.inj (hpayload.symm.trans hpayload')
  rw [appendDatafile,if_pos rfl,hline.parse hpayload] at happ
  obtain rfl := Except.ok.inj happ
  obtain ⟨hsame,hdrop⟩ := @drop_seekDevice _ env _
    ⟨UInt32.ofNat (decimal a),UInt32.ofNat (decimal b)⟩ (visits_holdsDevice (Visits.of_run hpre)) hfd
  rw [UInt32.toNat_ofNat_of_lt' hline.firstFits,UInt32.toNat_ofNat_of_lt' hline.secondFits] at hdrop
  rw [hdata,hfPos,hpos]
  exact ⟨hsame,hdrop⟩

/-- A client sends AESDCHAR_IOCSEEKTO:X,Y for two numerals whose text fits into the digit
buffer, and its handler has the data file open. Whatever the others do, the device stays
as it is as long as the handler owns the mutex. If its sends are complete, it owns it up to
its unlock, and what the client gets is a first part of the result of the command, and all
of it if no read fails. -/
theorem seek_response {pre mid : List Label} {c : ℕ} {env : AppendEnv} {s₀ s₁ s₂ : Sys}
    {a b line : List UInt8} (hpre : run (move true) boot pre = .ok s₀)
    (happend : step (move true) s₀ ⟨.handler c,.call (.append env)⟩ = .ok s₁)
    (hmid : run (move true) s₁ mid = .ok s₂) (hpayload : cstr (s₀.conn c).buffer = some line)
    (hline : SeekLine a b line) (hfd : 0 ≤ (s₀.conn c).dataFd) (hgo : ∀ l ∈ mid, goesOn c l = true) :
    (s₂.shared.mutex = some (.handler c) → s₂.shared.data = s₀.shared.data) ∧
    ((∀ s rc, Takes (move true) s₁ mid s ⟨.handler c,.call (.send rc)⟩ →
        rc = (Sys.conn s c).readbuf.length) →
      s₂.shared.mutex = some (.handler c) ∧
      ∃ response, sent c s₂.shared.log = sent c s₀.shared.log ++ response ∧
        response <+: seekResult s₀.shared.data.device (env.ioctlCopy && env.ioctlLock) (decimal a)
          (decimal b) ∧
        ((s₂.conn c).pc = .unlock → ReadsSucceed true c mid (s₀.conn c).dataFd →
          response = seekResult s₀.shared.data.device (env.ioctlCopy && env.ioctlLock) (decimal a)
            (decimal b))) := by
  obtain ⟨hdata,hdrop⟩ := appended_seek hpre happend hpayload hline hfd
  obtain ⟨-,hsameFd,-⟩ := appended_state happend
  have hsent : sent c s₁.shared.log = sent c s₀.shared.log := by
    obtain ⟨x,sh,hmove,rfl⟩ := step_ok_iff.mp happend
    cases handlerStep_of_move hmove with
    | append => simp
  obtain ⟨hkept,hresp⟩ := @response_is_rest true true _ _ _ _ _ _ _ hpre happend hmid hgo (by simp)
  refine ⟨fun hown => (hkept hown).trans hdata,fun hsend => ?_⟩
  obtain ⟨hown,response,hresponse,hfirst,hall⟩ := hresp hsend
  have hstart : (content true s₁.shared.data).drop (startOf true true (s₁.conn c).fPos) =
      seekResult s₀.shared.data.device (env.ioctlCopy && env.ioctlLock) (decimal a) (decimal b) := by
    rw [hdata]
    exact hdrop
  rw [hstart] at hfirst hall
  rw [hsameFd] at hall
  exact ⟨hown,response,by rw [hresponse,hsent],hfirst,hall⟩

set_option maxRecDepth 4000

/-- A client stores "a\n" and "bc\n", another one asks for byte 1 of entry 1. -/
def seekResponsePre : List Label :=
  accepted 0 4 ++ accepted 1 5 ++ calls 0 (chunkCalls [97,10] 6 [2]) ++
    calls 0 (chunkCalls [98,99,10] 7 [2,3]) ++
    calls 1 [.recv (some (matchCmd ++ [49,44,49,10])),.openFile 8,.seek true,.stage grantingRealloc,
      .lock 0]

def seekResponseMid : List Label := calls 1 [.rewind true,.read grantingRead,.send 2,.read grantingRead]

theorem seekResponse_sent : ∃ s₀ s₂ : Sys, run (move true) boot seekResponsePre = .ok s₀ ∧
    run (move true) boot (seekResponsePre ++ [⟨.handler 1,.call (.append grantingAppend)⟩] ++
      seekResponseMid) = .ok s₂ ∧
    sent 1 s₂.shared.log = sent 1 s₀.shared.log ++ [99,10] := by
  obtain ⟨s₀,hpre,h₀⟩ := exists_of_returns
    (show returns (fun s : Sys => contents s.shared.data.device = [[97,10],[98,99,10]] ∧
        s.shared.data.device.dev.circularBuffer.outOffs = 0 ∧ 0 ≤ (s.conn 1).dataFd ∧
        cstr (s.conn 1).buffer = some (matchCmd ++ [49,44,49,10]))
      (run (move true) boot seekResponsePre) = true by decide +kernel)
  obtain ⟨hcontents,hout,hfd,hpayload⟩ := of_decide_eq_true h₀
  obtain ⟨s₁,hrun₁,h₁⟩ := exists_of_returns
    (show returns (fun s : Sys => stepsPass (move true) granted s seekResponseMid = true ∧
        returns (fun t : Sys => (t.conn 1).pc = .unlock) (run (move true) s seekResponseMid) = true)
      (run (move true) boot (seekResponsePre ++ [⟨.handler 1,.call (.append grantingAppend)⟩])) = true by
        decide +kernel)
  obtain ⟨hpass,hmid⟩ := of_decide_eq_true h₁
  obtain ⟨s₂,hrun₂,h₂⟩ := exists_of_returns hmid
  obtain ⟨t,ht,happend⟩ := run_snoc.mp hrun₁
  obtain rfl := Except.ok.inj (hpre.symm.trans ht)
  have hone : Numeral [49] := ⟨by decide,by decide⟩
  have hline : SeekLine [49] [49] (matchCmd ++ [49,44,49,10]) :=
    ⟨hone,by decide,hone,by decide,by decide,by decide⟩
  obtain ⟨-,hresp⟩ := seek_response hpre happend hrun₂ hpayload hline hfd (by decide)
  obtain ⟨-,response,hsent,-,hall⟩ := hresp (fun s rc h => of_decide_eq_true (pass_of_takes hpass h))
  refine ⟨s₀,s₂,hpre,run_append.mpr ⟨s₁,hrun₁,hrun₂⟩,?_⟩
  rw [hsent,hall (of_decide_eq_true h₂) ⟨hfd,by simp [seekResponseMid,calls,readSucceeds,grantingRead]⟩,
    seekResult,hcontents,hout,if_pos ⟨by decide,by rw [StoredAt,hcontents]; decide⟩]
  rfl

end Aesd.Server
