import Aesd.Server.Framing

/-! # What the device holds

For clients that send no NUL bytes and no line beyond what one write can carry: each
append of a handler stores the first line of its string, and the device holds the
newest ten of the lines stored so far.
-/
namespace Aesd.Server
open CharDevice Kernel CString Interleaving Lines Window

/-- The streams so far have no NUL bytes and no complete line above a bound. -/
def Bounded (bound : ℕ) (log : List Event) : Prop :=
  ∀ c, 0 ∉ received c log ∧ ∀ line ∈ lines newline (received c log), line.length ≤ bound

theorem Bounded.earlier {bound : ℕ} {log log' : List Event} (h : Bounded bound log')
    (hlog : log <+: log') : Bounded bound log := by
  obtain ⟨more,rfl⟩ := hlog
  intro c
  obtain ⟨hnul,hlines⟩ := h c
  rw [received_append] at hnul hlines
  refine ⟨fun h0 => hnul (List.mem_append_left _ h0),fun line hline => hlines line ?_⟩
  rw [lines_append]
  exact List.mem_append_left _ hline

theorem Bounded.mono {a b : ℕ} {log : List Event} (h : Bounded a log) (hab : a ≤ b) : Bounded b log :=
  fun c => ⟨(h c).1,fun line hline => ((h c).2 line hline).trans hab⟩

theorem rest_flatten_finished {ps : List (List UInt8)} (h : ∀ p ∈ ps, Finished p) :
    rest newline ps.flatten = [] := by
  induction ps with
  | nil => rfl
  | cons p ps ih =>
    rw [List.flatten_cons,rest_append,(h p List.mem_cons_self).rest_eq,List.nil_append]
    exact ih (fun q hq => h q (List.mem_cons_of_mem _ hq))

/-- The first line of a string that was sent off is a line of the stream, and so is
all of it behind less than one chunk. -/
theorem feeds_lines {cs : List (List UInt8)} (hlen : ∀ chunk ∈ cs, chunk.length ≤ bufferSize)
    {p : List UInt8} (hp : p ∈ (feeds cs).1) :
    takeLine newline p ∈ lines newline cs.flatten ∧
      ∃ line ∈ lines newline cs.flatten, p.length < line.length + bufferSize := by
  obtain ⟨hshape,-⟩ := feeds_shape hlen
  obtain ⟨ps,qs,hsplit⟩ := List.append_of_mem hp
  have hstart : rest newline ps.flatten = [] := by
    refine rest_flatten_finished (fun q hq => hshape q ?_)
    rw [hsplit]
    exact List.mem_append_left _ hq
  have hstream : cs.flatten = ps.flatten ++ (p ++ (qs.flatten ++ (feeds cs).2)) := by
    rw [← feeds_flatten cs,hsplit]
    simp
  have hfin := hshape p hp
  rw [hstream]
  constructor
  · rcases first_sep newline p with hnot | ⟨u,t,hu,rfl⟩
    · exact absurd hfin.mem hnot
    · have hmem := mem_lines_append hu ps.flatten (t ++ (qs.flatten ++ (feeds cs).2))
      rw [hstart,List.nil_append] at hmem
      rw [takeLine_append_sep hu]
      simpa using hmem
  · obtain ⟨a,b,rfl,ha,hb⟩ := hfin
    refine ⟨_,by simpa using mem_lines_append hb (ps.flatten ++ a) (qs.flatten ++ (feeds cs).2),?_⟩
    simp only [List.length_append,List.length_singleton]
    omega

/-- Lines that the driver took, in the order of the writes. -/
def stored (log : List Event) : List (List UInt8) :=
  log.filterMap (fun | .appended _ _ accepted => if accepted = [] then none else some accepted | _ => none)

@[simp] theorem stored_append (log log' : List Event) :
    stored (log ++ log') = stored log ++ stored log' := by simp [stored]
@[simp] theorem stored_appended_nil (i : Thread) (payload : List UInt8) :
    stored [.appended i payload []] = [] := rfl
theorem stored_appended (i : Thread) (payload : List UInt8) {accepted : List UInt8} (h : accepted ≠ []) :
    stored [.appended i payload accepted] = [accepted] := by simp [stored,h]
@[simp] theorem stored_received (c : ℕ) (bytes : List UInt8) : stored [.received c bytes] = [] := rfl
@[simp] theorem stored_opened (i : Thread) (fd : ℤ) : stored [.opened i fd] = [] := rfl
@[simp] theorem stored_closed (i : Thread) (fd : ℤ) : stored [.closed i fd] = [] := rfl
@[simp] theorem stored_sought (i : Thread) : stored [.sought i] = [] := rfl
@[simp] theorem stored_sent (c : ℕ) (bytes : List UInt8) : stored [.sent c bytes] = [] := rfl

/-- The device holds the newest ten stored lines, each of them the first line of a
string that some handler appended. -/
structure Recorded (sh : Shared) : Prop where
  settled : Settled sh.data.device ((stored sh.log).rtake 10)
  first : ∀ line ∈ stored sh.log, ∃ c, ∃ p ∈ payloads c sh.log, line = takeLine newline p

theorem appending_mem {sh : Shared} {self : ℕ} {x : Conn} {payload : List UInt8}
    (hx : FramedAt (.handler self) sh x) (hnul : 0 ∉ received self sh.log) (hpc : x.pc = .append)
    (hpayload : cstr x.buffer = some payload) :
    payload ∈ (feeds (chunks self sh.log)).1 := by
  have hf := hx.2.2 hnul
  simp only [Framed,hpc] at hf
  obtain ⟨held,hbuf,hfeeds⟩ := hf
  obtain rfl := Option.some.inj (hbuf.symm.trans hpayload)
  simp [hfeeds]

theorem appending_payload {sh : Shared} {self : ℕ} {x : Conn} {payload : List UInt8} {bound : ℕ}
    (hb : Bounded bound sh.log) (hx : FramedAt (.handler self) sh x) (hpc : x.pc = .append)
    (hpayload : cstr x.buffer = some payload) :
    newline ∈ payload ∧ payload.length < bound + bufferSize ∧
      (takeLine newline payload).length ≤ bound ∧
      takeLine newline payload ∈ lines newline (received self sh.log) := by
  have hmem := appending_mem hx (hb self).1 hpc hpayload
  obtain ⟨-,hlen,-⟩ := hx
  obtain ⟨hline,line,hl,hlt⟩ := feeds_lines hlen hmem
  have hle := (hb self).2 line hl
  exact ⟨((feeds_shape hlen).1 payload hmem).mem,by omega,(hb self).2 _ hline,hline⟩

theorem takeLine_take {bytes : List UInt8} {n : ℕ} (hn : newline ∈ bytes)
    (hlen : (takeLine newline bytes).length ≤ n) :
    newline ∈ bytes.take n ∧ takeLine newline (bytes.take n) = takeLine newline bytes := by
  rcases first_sep newline bytes with hnot | ⟨u,t,hu,rfl⟩
  · exact absurd hn hnot
  · rw [takeLine_append_sep hu] at hlen ⊢
    simp only [List.length_append,List.length_singleton] at hlen
    have htake : (u ++ newline :: t).take n = u ++ newline :: t.take (n - u.length - 1) := by
      obtain ⟨m,hm⟩ : ∃ m, n - u.length = m + 1 := ⟨n - u.length - 1,by omega⟩
      rw [List.take_append,List.take_of_length_le (by omega : u.length ≤ n),hm,List.take_succ_cons]
      simp
    rw [htake,takeLine_append_sep hu]
    exact ⟨by simp,rfl⟩

theorem parseSeektoCmd_of_absent {x y : UInt32} {buf payload : List UInt8} {size : ℤ}
    (hbuf : cstr buf = some payload) (habsent : ¬ matchCmd <:+: payload) :
    parseSeektoCmd x y buf size = .ok none := by
  simp [parseSeektoCmd,hbuf,inBounds,strstr_eq_none_iff.mpr habsent,bind,Except.bind,pure,Except.pure]

/-- A string of a bounded stream reaches the driver as far as its first line at least,
unless it is taken for a seek command or its file is not open. -/
theorem deviceWrite_payload (env : AppendEnv) (fd : ℤ) {buf payload : List UInt8}
    (hpayload : cstr buf = some payload) (hn : newline ∈ payload)
    (hlen : payload.length < maxRwCount + bufferSize)
    (hfirst : (takeLine newline payload).length ≤ maxRwCount) :
    (∀ bytes, deviceWrite env fd buf (intOf payload.length) = some bytes →
      newline ∈ bytes ∧ takeLine newline bytes = takeLine newline payload) ∧
    (0 ≤ fd → ¬ matchCmd <:+: payload →
      ∃ bytes, deviceWrite env fd buf (intOf payload.length) = some bytes) := by
  have hint : intOf payload.length = payload.length := by
    refine intOf_of_lt ?_
    simp only [maxRwCount,bufferSize] at hlen
    omega
  constructor
  · intro bytes hbytes
    unfold deviceWrite at hbytes
    split at hbytes
    · rename_i n hp hw
      simp only [writeCount,hint] at hw
      split at hw
      · simp at hw
      · obtain rfl := Option.some.inj hw
        obtain rfl := Option.some.inj hbytes
        obtain ⟨-,t,rfl⟩ := exists_of_cstr hpayload
        rw [Int.toNat_natCast,List.take_append_of_le_length (min_le_left _ _)]
        refine takeLine_take hn (le_min ?_ hfirst)
        exact (takeLine_isPrefix newline payload).length_le
    · simp at hbytes
  · intro hfd habsent
    have hcount : writeCount fd (intOf payload.length) = some (min payload.length maxRwCount) := by
      rw [hint,writeCount,if_neg (by omega),Int.toNat_natCast]
    exact ⟨_,by rw [deviceWrite,parseSeektoCmd_of_absent hpayload habsent,hcount]⟩

theorem append_recorded {sh : Shared} {self : ℕ} {x : Conn} {env : AppendEnv} {payload : List UInt8}
    {r : AppendResult} (hb : Bounded maxRwCount sh.log) (hx : FramedAt (.handler self) sh x)
    (hr : Recorded sh) (hpc : x.pc = .append) (hpayload : cstr x.buffer = some payload)
    (happend : appendDatafile true env sh.data x.dataFd x.fPos x.buffer (intOf payload.length) = .ok r) :
    Recorded ({ sh with data := r.data }.record (.appended (.handler self) payload r.accepted)) ∧
    (0 ≤ x.dataFd → ¬ matchCmd <:+: payload → (env.write.lock && env.write.copy) = true →
      r.accepted = takeLine newline payload ∧ r.fPos = 0) := by
  obtain ⟨hn,hlen,hfirst,-⟩ := appending_payload hb hx hpc hpayload
  obtain ⟨hbytes,hgets⟩ := deviceWrite_payload env x.dataFd hpayload hn hlen hfirst
  have hshort : (intOf payload.length).toNat ≤ x.buffer.length :=
    (intOf_toNat_le _).trans (length_lt_of_cstr hpayload).le
  have hold : ∀ accepted, ∀ line ∈ stored sh.log, ∃ c,
      ∃ p ∈ payloads c (sh.log ++ [.appended (.handler self) payload accepted]),
        line = takeLine newline p := by
    intro accepted line hline
    obtain ⟨c,p,hp,rfl⟩ := hr.first line hline
    exact ⟨c,p,by rw [payloads_append]; exact List.mem_append_left _ hp,rfl⟩
  rcases appendDatafile_settled hr.settled hshort happend (fun b hb => (hbytes b hb).1) with
    ⟨hset,hacc,hwhy⟩ | ⟨bytes,hdev,hacc,hpos,hset⟩
  · have hsame : stored (sh.log ++ [.appended (.handler self) payload r.accepted]) = stored sh.log := by
      rw [stored_append,hacc,stored_appended_nil,List.append_nil]
    refine ⟨⟨?_,?_⟩,?_⟩
    · simpa only [Shared.record_log,Shared.record_data,hsame] using hset
    · simpa only [Shared.record_log,hsame] using hold r.accepted
    · intro hfd habsent hgrant
      rcases hwhy with hnone | hdenied
      · obtain ⟨bytes,hsome⟩ := hgets hfd habsent
        simp [hnone] at hsome
      · simp [hgrant] at hdenied
  · rw [(hbytes bytes hdev).2] at hacc hset
    have hne : takeLine newline payload ≠ [] :=
      List.ne_nil_of_mem ((mem_takeLine_iff newline payload).mpr hn)
    have hmore : stored (sh.log ++ [.appended (.handler self) payload r.accepted]) =
        stored sh.log ++ [takeLine newline payload] := by
      rw [stored_append,hacc,stored_appended _ _ hne]
    refine ⟨⟨?_,?_⟩,fun _ _ _ => ⟨hacc,hpos⟩⟩
    · simp only [Shared.record_log,hmore]
      rwa [push_rtake] at hset
    · intro line hline
      simp only [Shared.record_log,hmore,List.mem_append,List.mem_singleton] at hline
      rcases hline with hline | rfl
      · exact hold r.accepted line hline
      · exact ⟨self,payload,by simp,rfl⟩

theorem Recorded.keep {sh sh' : Shared} (h : Recorded sh) (hdata : sh'.data = sh.data)
    (hlog : sh'.log = sh.log ∨ ∃ e, sh'.log = sh.log ++ [e] ∧ stored [e] = []) : Recorded sh' := by
  have hstored : stored sh'.log = stored sh.log := by
    rcases hlog with hlog | ⟨e,hlog,he⟩
    · rw [hlog]
    · rw [hlog,stored_append,he,List.append_nil]
  have hpayloads : ∀ c, payloads c sh.log ⊆ payloads c sh'.log := by
    intro c
    rcases hlog with hlog | ⟨e,hlog,-⟩
    · rw [hlog]
      apply List.Subset.refl
    · rw [hlog,payloads_append]
      apply List.subset_append_left
  refine ⟨by rw [hdata,hstored]; exact h.settled,fun line hline => ?_⟩
  rw [hstored] at hline
  obtain ⟨c,p,hp,rfl⟩ := h.first line hline
  exact ⟨c,p,hpayloads c hp,rfl⟩

theorem step_recorded {s s' : Sys} {l : Label} (hb : Bounded maxRwCount s.shared.log)
    (hs : Everywhere FramedAt s) (hr : Recorded s.shared) (h : step (move true) s l = .ok s') :
    Recorded s'.shared := by
  obtain ⟨i,a⟩ := l
  obtain ⟨x,sh,hmove,rfl⟩ := step_ok_iff.mp h
  cases i with
  | timer t => exact absurd (timerStep_of_move hmove).1 (by simp)
  | handler c =>
    cases handlerStep_of_move hmove with
    | append hlogs hpc hpayload happend =>
      exact (append_recorded hb (hs (.handler c)) hr hpc hpayload happend).1
    | _ => exact hr.keep rfl (by simp)

theorem boot_recorded : Recorded boot.shared := ⟨settled_init,by simp [boot,stored]⟩

theorem visits_recorded {ls : List Label} {s : Sys} (hs : Visits (move true) boot ls s)
    (hb : Bounded maxRwCount s.shared.log) : Recorded s.shared := by
  have hall := hs.always (I := fun t => Everywhere FramedAt t ∧
      (Bounded maxRwCount t.shared.log → Recorded t.shared)) ⟨boot_framed,fun _ => boot_recorded⟩
    (fun t l t' hI h => ⟨step_framed hI.1 h,fun hb' => by
      have hbt := hb'.earlier (step_log h)
      exact step_recorded hbt hI.1 (hI.2 hbt) h⟩)
  exact hall.2 hb

theorem Recorded.length_le {s : Sys} {bound : ℕ} (hr : Recorded s.shared) (hs : Everywhere FramedAt s)
    (hb : Bounded bound s.shared.log) : ∀ line ∈ stored s.shared.log, line.length ≤ bound := by
  intro line hline
  obtain ⟨c,p,hp,rfl⟩ := hr.first line hline
  obtain ⟨-,hlen,hframed⟩ : FramedAt (.handler c) s.shared (s.conn c) := hs (.handler c)
  have hmem := (hframed (hb c).1).sentOff.subset hp
  exact (hb c).2 _ (feeds_lines hlen hmem).1

end Aesd.Server
