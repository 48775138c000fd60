import Aesd.Server.DeviceFile
import Aesd.Server.MutexRelease

/-! # Lines of different clients in the device

The driver has one buffer for the unfinished line of all its files. The handlers keep
it empty as long as every string that they append contains a newline, and then each
stored line comes from one connection.
-/
namespace Aesd.Server
open CharDevice Kernel CString Interleaving Lines Window

/-- All chunks with the connections they came from. -/
def receipts (log : List Event) : List (ℕ × List UInt8) :=
  log.filterMap (fun | .received c bytes => some (c,bytes) | _ => none)

theorem chunks_eq (c : ℕ) (log : List Event) :
    chunks c log = (receipts log).filterMap (fun p => if p.1 = c then some p.2 else none) := by
  rw [chunks,receipts,List.filterMap_filterMap]
  congr 1
  funext e
  cases e <;> rfl

theorem chunks_move {charDevice : Bool} {i : Thread} {c : ℕ} {sh sh' : Shared} {x x' : Local i}
    {a : Act i} (h : move charDevice i sh x a = .ok (x',sh')) (hc : .handler c ≠ i) :
    chunks c sh'.log = chunks c sh.log := by
  rcases move_log h with hlog | ⟨e,hlog,hthread⟩
  · rw [hlog]
  · rw [hlog,chunks_append]
    cases e with
    | received c' bytes =>
      have hne : c' ≠ c := by
        rintro rfl
        exact hc hthread
      rw [chunks_received_of_ne hne,List.append_nil]
    | _ => simp

/-- A realloc with room for the string and its NUL keeps both. -/
theorem cstr_realloc_of_lt {buf held : List UInt8} {size : ℕ} (junk : ℕ → UInt8)
    (hbuf : cstr buf = some held) (hsize : held.length < size) :
    cstr (realloc buf size junk) = some held := by
  obtain ⟨hzero,t,rfl⟩ := exists_of_cstr hbuf
  have hkeep : realloc (held ++ 0 :: t) size junk =
      held ++ 0 :: (t.take (size - held.length - 1) ++
        (List.range (size - (held ++ 0 :: t).length)).map junk) := by
    obtain ⟨m,hm⟩ : ∃ m, size - held.length = m + 1 := ⟨size - held.length - 1,by omega⟩
    rw [realloc,List.take_append,List.take_of_length_le (by omega : held.length ≤ size),hm,
      List.take_succ_cons]
    simp
  rw [hkeep]
  exact cstr_append_zero hzero _

theorem cstr_realloc {buf held d : List UInt8} {size : ℕ} {junk : ℕ → UInt8}
    (hbuf : cstr buf = some held) (h : cstr (realloc buf size junk) = some d) : d = held := by
  by_cases hsize : size ≤ held.length
  · obtain ⟨hzero,t,rfl⟩ := exists_of_cstr hbuf
    have hcut : realloc (held ++ 0 :: t) size junk = held.take size := by
      rw [realloc,List.take_append_of_le_length hsize,
        show size - (held ++ 0 :: t).length = 0 by simp only [List.length_append]; omega]
      simp
    rw [hcut,cstr,if_neg (fun h0 => hzero (List.mem_of_mem_take h0))] at h
    simp at h
  · rw [cstr_realloc_of_lt junk hbuf (not_le.mp hsize)] at h
    exact (Option.some.inj h).symm

/-- append_string appends the part of its input before a NUL. -/
theorem appendString_cstr {env : ReallocEnv} {buf buf' held inBuf : List UInt8}
    {maxbuflen maxbuflen' buflen : UInt64} {n : ℕ} (hbuf : cstr buf = some held)
    (h : appendString env buf maxbuflen buflen inBuf n = .ok (buf',maxbuflen')) :
    cstr buf' = some (held ++ untilNul (inBuf.take n)) := by
  have hcat : ∀ {b : List UInt8} {max : UInt64}, (∀ d, cstr b = some d → d = held) →
      (inBounds (strncat b inBuf n)).map (fun b => (b,max)) = .ok (buf',maxbuflen') →
      cstr buf' = some (held ++ untilNul (inBuf.take n)) := by
    intro b max hb hmap
    cases hs : strncat b inBuf n with
    | none => simp [hs,inBounds,Except.map] at hmap
    | some b' =>
      simp only [hs,inBounds,Except.map,Except.ok.injEq,Prod.mk.injEq] at hmap
      obtain ⟨rfl,-⟩ := hmap
      obtain ⟨d,hd,hres,-⟩ := cstr_strncat hs
      rw [hres,hb d hd]
  unfold appendString at h
  split at h
  · dsimp only at h
    split at h
    · exact hcat (fun d hd => cstr_realloc hbuf hd) h
    · simp at h
  · exact hcat (fun d hd => Option.some.inj (hd.symm.trans hbuf)) h

/-- What a handler keeps is a selection of what it received. -/
def Isolated (x : Conn) (bytes : List UInt8) : Prop :=
  match x.pc with
  | .start => x.buffer ≠ [] ∧ x.recvBuf = []
  | .openFile | .seek | .stage =>
    ∃ held, cstr x.buffer = some held ∧ (held ++ x.recvBuf).Sublist bytes
  | .recv | .lock | .append =>
    ∃ held, cstr x.buffer = some held ∧ held.Sublist bytes ∧ x.recvBuf.Sublist bytes
  | .rewind | .read | .send | .unlock | .rest => cstr x.buffer = some [] ∧ x.recvBuf.Sublist bytes
  | _ => True

def IsolatedAt : (i : Thread) → Shared → Local i → Prop
  | .handler c => fun sh (x : Conn) => Isolated x (received c sh.log)
  | .timer _ => fun _ _ => True

theorem cstr_clear {buf held : List UInt8} (h : cstr buf = some held) :
    cstr (buf.set 0 0) = some [] := by
  refine cstr_set_zero ?_
  rintro rfl
  simp [cstr] at h

theorem HandlerStep.isolated {charDevice : Bool} {self : ℕ} {sh sh' : Shared} {x x' : Conn} {m : Move}
    (h : HandlerStep charDevice self sh x m x' sh') (hx : Isolated x (received self sh.log)) :
    Isolated x' (received self sh'.log) := by
  have hsame : ∀ e, received self [e] = [] →
      received self (sh.log ++ [e]) = received self sh.log := by
    intro e he
    rw [received_append,he,List.append_nil]
  cases h with
  | accept => simp [Isolated,Conn.fresh,bufferSize]
  | syslog | requestCancel => simpa [Isolated] using hx
  | start hlogs hpc =>
    simp only [Isolated,hpc] at hx ⊢
    exact ⟨[],cstr_set_zero hx.1,List.nil_sublist _,by simp [hx.2]⟩
  | recv hlogs hpc hne hlen =>
    rename_i bytes
    simp only [Isolated,hpc] at hx ⊢
    obtain ⟨held,hbuf,hsub,-⟩ := hx
    have hnew : received self (sh.record (.received self bytes)).log =
        received self sh.log ++ bytes := by
      simp [received]
    rw [hnew]
    exact ⟨held,hbuf,hsub.append (List.Sublist.refl _)⟩
  | openFailed hlogs hpc | openFile hlogs hpc | seek hlogs hpc | send hlogs hpc =>
    simp only [Isolated,hpc,Shared.record_log,Shared.claim_log] at hx ⊢
    rwa [hsame _ (by simp [received])]
  | stage hlogs hpc happend =>
    simp only [Isolated,hpc] at hx
    obtain ⟨held,hbuf,hsub⟩ := hx
    have hbuf' := appendString_cstr hbuf happend
    have hpart : (untilNul (x.recvBuf.take x.currlen)).Sublist x.recvBuf :=
      (untilNul_sublist _).trans (List.take_sublist _ _)
    have hheld := ((List.Sublist.refl held).append hpart).trans hsub
    have hrecv := (List.sublist_append_right held x.recvBuf).trans hsub
    cases hn : x.hasNl <;> simpa [Isolated,hn] using ⟨_,hbuf',hheld,hrecv⟩
  | append hlogs hpc hpayload happend =>
    simp only [Isolated,hpc,Shared.record_log] at hx ⊢
    rw [hsame _ (by simp [received])]
    exact ⟨cstr_clear hpayload,hx.choose_spec.2.2⟩
  | rest hlogs hpc happend =>
    simp only [Isolated,hpc] at hx ⊢
    obtain ⟨hbuf,hsub⟩ := hx
    have hbuf' := appendString_cstr hbuf happend
    have hpart := (untilNul_sublist ((x.recvBuf.drop (x.newlineAt + 1)).take
      (x.recvBuf.length - x.newlineAt - 1))).trans ((List.take_sublist _ _).trans (List.drop_sublist _ _))
    exact ⟨_,hbuf',by simpa using hpart.trans hsub,hsub⟩
  | lock hlogs hpc | unlock hlogs hpc | rewind hlogs hpc | read hlogs hpc | readEnd hlogs hpc =>
    simpa [Isolated,hpc] using hx
  | _ => simp [Isolated]

/-- The device has no unfinished line, and each line comes from one connection. -/
def OneSource (sh : Shared) : Prop :=
  ∃ ls, Settled sh.data.device ls ∧ ∀ line ∈ ls, ∃ c, line.Sublist (received c sh.log)

theorem sublist_received_of_isPrefix {c : ℕ} {bytes : List UInt8} {log log' : List Event}
    (h : bytes.Sublist (received c log)) (hlog : log <+: log') : bytes.Sublist (received c log') := by
  obtain ⟨more,rfl⟩ := hlog
  rw [received_append]
  exact h.trans (List.sublist_append_left _ _)

theorem OneSource.keep {sh sh' : Shared} (h : OneSource sh) (hdata : sh'.data = sh.data)
    (hlog : sh.log <+: sh'.log) : OneSource sh' := by
  obtain ⟨ls,hset,hls⟩ := h
  refine ⟨ls,by rwa [hdata],fun line hline => ?_⟩
  obtain ⟨c,hc⟩ := hls line hline
  exact ⟨c,sublist_received_of_isPrefix hc hlog⟩

/-- The bytes that a step hands to the write operation of the driver. -/
def stepWrites (s : Sys) : Label → Option (List UInt8)
  | ⟨.handler c,.call (.append env)⟩ =>
    (cstr (s.conn c).buffer).bind (fun payload =>
      deviceWrite env (s.conn c).dataFd (s.conn c).buffer (intOf payload.length))
  | _ => none

/-- Every string that reaches the driver contains a newline. -/
def writesNewline (s : Sys) (l : Label) : Bool := (stepWrites s l).all (fun bytes => newline ∈ bytes)

theorem OneSource.append {sh : Shared} {self : ℕ} {x : Conn} {env : AppendEnv} {payload : List UInt8}
    {r : AppendResult} (h : OneSource sh) (hx : payload.Sublist (received self sh.log))
    (hpayload : cstr x.buffer = some payload)
    (happend : appendDatafile true env sh.data x.dataFd x.fPos x.buffer (intOf payload.length) = .ok r)
    (hnl : ∀ bytes, deviceWrite env x.dataFd x.buffer (intOf payload.length) = some bytes →
      newline ∈ bytes) :
    OneSource ({ sh with data := r.data }.record (.appended (.handler self) payload r.accepted)) := by
  obtain ⟨ls,hset,hls⟩ := h
  have hshort : (intOf payload.length).toNat ≤ x.buffer.length :=
    (intOf_toNat_le _).trans (length_lt_of_cstr hpayload).le
  have hlog : sh.log <+: ({ sh with data := r.data }.record
      (.appended (.handler self) payload r.accepted)).log := List.prefix_append _ _
  have hold : ∀ line ∈ ls, ∃ c, line.Sublist (received c ({ sh with data := r.data }.record
      (.appended (.handler self) payload r.accepted)).log) := by
    intro line hline
    obtain ⟨c,hc⟩ := hls line hline
    exact ⟨c,sublist_received_of_isPrefix hc hlog⟩
  rcases appendDatafile_settled hset hshort happend hnl with
    ⟨hset',-,-⟩ | ⟨bytes,hbytes,-,-,hset'⟩
  · exact ⟨ls,hset',hold⟩
  · refine ⟨_,hset',fun line hline => ?_⟩
    rcases mem_push hline with hline | rfl
    · exact hold line hline
    · have hsub := (takeLine_isPrefix newline bytes).sublist.trans
        (deviceWrite_isPrefix hpayload hbytes).sublist
      exact ⟨self,sublist_received_of_isPrefix (hsub.trans hx) hlog⟩

theorem step_oneSource {s s' : Sys} {l : Label} (hs : Everywhere IsolatedAt s) (hd : OneSource s.shared)
    (hG : writesNewline s l = true) (h : step (move true) s l = .ok s') : OneSource s'.shared := by
  have hlog := step_log h
  obtain ⟨i,a⟩ := l
  obtain ⟨x,sh,hmove,rfl⟩ := step_ok_iff.mp h
  cases i with
  | timer t => exact absurd (timerStep_of_move hmove).1 (by simp)
  | handler c =>
    have hc : Isolated (Sys.conn s c) (received c s.shared.log) := hs (.handler c)
    cases handlerStep_of_move hmove with
    | append hlogs hpc hpayload happend =>
      have hpc' : (Sys.conn s c).pc = .append := hpc
      simp only [Isolated,hpc'] at hc
      obtain ⟨held,hheld,hsub,-⟩ := hc
      obtain rfl := Option.some.inj (hheld.symm.trans hpayload)
      refine hd.append hsub hpayload happend ?_
      intro bytes hbytes
      have hcstr : cstr (Sys.conn s c).buffer = some held := hpayload
      have hw : deviceWrite _ (Sys.conn s c).dataFd (Sys.conn s c).buffer (intOf held.length) = _ := hbytes
      simpa [writesNewline,stepWrites,hcstr,hw] using hG
    | _ => exact hd.keep rfl hlog

theorem step_isolated {s s' : Sys} {l : Label} (hs : Everywhere IsolatedAt s)
    (h : step (move true) s l = .ok s') : Everywhere IsolatedAt s' := by
  refine everywhere_of_step (fun _ _ _ => trivial) ?_ ?_ h
  · intro c m x sh _ hstep
    exact hstep.isolated (hs (.handler c))
  · intro c i x sh a hmove hi
    have hc : IsolatedAt (.handler c) s.shared (s.conn c) := hs (.handler c)
    simp only [IsolatedAt,received] at hc ⊢
    rwa [chunks_move hmove hi]

theorem boot_isolated : Everywhere IsolatedAt boot := by
  intro i
  cases i <;> simp [IsolatedAt,boot,Conn.fresh,Isolated]

theorem boot_oneSource : OneSource boot.shared := ⟨[],settled_init,by simp⟩

/-- Every stored line is made of bytes of one connection, and the unfinished line is
empty while nobody holds the mutex. -/
def LinesIsolated (s : Sys) : Prop :=
  (∀ line ∈ contents s.shared.data.device, ∃ c, line.Sublist (received c s.shared.log)) ∧
    (s.shared.mutex = none → pending s.shared.data.device = [])

/-- Clients stay apart in every state of a run in which every string that reaches the
driver contains a newline. -/
theorem lines_isolated_of_newlines {ls : List Label}
    (hnl : ∀ s l, Takes (move true) boot ls s l → writesNewline s l = true) {s : Sys}
    (hs : Visits (move true) boot ls s) : LinesIsolated s := by
  obtain ⟨-,lines,hset,hlines⟩ := hs.invariant
    (I := fun s => Everywhere IsolatedAt s ∧ OneSource s.shared) ⟨boot_isolated,boot_oneSource⟩
    (fun t l t' hI hG h => ⟨step_isolated hI.1 h,step_oneSource hI.1 hI.2 hG h⟩) hnl
  exact ⟨by rw [hset.contents_eq]; exact hlines,fun _ => hset.pending_eq⟩

/-- The calls of a handler for a chunk with one newline at its end, up to the unlock,
when the device sends back the given pieces. -/
def chunkCalls (chunk : List UInt8) (fd : ℤ) (pieces : List ℤ) : List Call :=
  [.recv (some chunk),.openFile fd,.seek true,.stage grantingRealloc,.lock 0,.append grantingAppend,
    .rewind true] ++ pieces.flatMap (fun n => [.read grantingRead,.send n]) ++
  [.read grantingRead,.unlock,.rest grantingRealloc]

set_option maxRecDepth 4000

/-- Two clients send "a\n" and "x\n". -/
def twoClientsRun : List Label :=
  accepted 0 4 ++ accepted 1 5 ++ calls 0 (chunkCalls [97,10] 6 [2]) ++
    calls 1 (chunkCalls [120,10] 7 [2,2])

theorem twoClientsRun_isolated :
    ∃ s, run (move true) boot twoClientsRun = .ok s ∧ LinesIsolated s := by
  obtain ⟨s,hrun,-⟩ := exists_of_returns
    (show returns (fun _ : Sys => true) (run (move true) boot twoClientsRun) = true by decide)
  have hpass : stepsPass (move true) writesNewline boot twoClientsRun = true := by decide
  exact ⟨s,hrun,lines_isolated_of_newlines (fun _ _ h => pass_of_takes hpass h) (Visits.of_run hrun)⟩

/-- The same with a NUL in front of the newline of the first client. -/
def nulRun : List Label :=
  accepted 0 4 ++ accepted 1 5 ++ calls 0 (chunkCalls [97,0,10] 6 []) ++
    calls 1 (chunkCalls [120,10] 7 [3])

theorem nulRun_mixes_clients :
    ∃ s : Sys, run (move true) boot nulRun = .ok s ∧ contents s.shared.data.device = [[97,120,10]] ∧
      received 0 s.shared.log = [97,0,10] ∧ received 1 s.shared.log = [120,10] ∧ ¬ LinesIsolated s := by
  obtain ⟨s,hrun,hend⟩ := exists_of_returns
    (show returns (fun s : Sys => contents s.shared.data.device = [[97,120,10]] ∧
      receipts s.shared.log = [(0,[97,0,10]),(1,[120,10])]) (run (move true) boot nulRun) = true by
        decide)
  obtain ⟨hcon,hlog⟩ := of_decide_eq_true hend
  refine ⟨s,hrun,hcon,by simp [received,chunks_eq,hlog],by simp [received,chunks_eq,hlog],?_⟩
  rintro ⟨hsource,-⟩
  obtain ⟨c,hc⟩ := hsource [97,120,10] (by simp [hcon])
  have hmem : ∀ b ∈ [97,120,10], b ∈ received c s.shared.log := fun b hb => hc.subset hb
  have h97 := hmem 97 (by simp)
  have h120 := hmem 120 (by simp)
  by_cases h0 : c = 0
  · simp [received,chunks_eq,hlog,h0] at h120
  · simp [received,chunks_eq,hlog,Ne.symm h0] at h97

end Aesd.Server
