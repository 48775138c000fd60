import Aesd.Server.LineIsolation

/-! # How a handler cuts its stream

For streams without NUL bytes the strings that a handler appends, and the string it
holds, are a function of the chunks it received. Together they are the received bytes;
each appended string ends in a newline, and all of it but less than one chunk is a
single line.
-/
namespace Aesd.Server
open CharDevice Kernel CString Interleaving Lines

def payloads (c : ℕ) (log : List Event) : List (List UInt8) :=
  log.filterMap (fun | .appended i payload _ => if i = .handler c then some payload else none | _ => none)

@[simp] theorem payloads_append (c : ℕ) (log log' : List Event) :
    payloads c (log ++ log') = payloads c log ++ payloads c log' := by simp [payloads]
@[simp] theorem payloads_appended (c : ℕ) (payload accepted : List UInt8) :
    payloads c [.appended (.handler c) payload accepted] = [payload] := by simp [payloads]
theorem payloads_appended_of_ne {c : ℕ} {i : Thread} (h : i ≠ .handler c) (payload accepted : List UInt8) :
    payloads c [.appended i payload accepted] = [] := by simp [payloads,h]
@[simp] theorem payloads_received (c c' : ℕ) (bytes : List UInt8) :
    payloads c [.received c' bytes] = [] := rfl
@[simp] theorem payloads_opened (c : ℕ) (i : Thread) (fd : ℤ) : payloads c [.opened i fd] = [] := rfl
@[simp] theorem payloads_closed (c : ℕ) (i : Thread) (fd : ℤ) : payloads c [.closed i fd] = [] := rfl
@[simp] theorem payloads_sought (c : ℕ) (i : Thread) : payloads c [.sought i] = [] := rfl
@[simp] theorem payloads_sent (c c' : ℕ) (bytes : List UInt8) : payloads c [.sent c' bytes] = [] := rfl

theorem Conn.hasNl_iff (x : Conn) : x.hasNl = true ↔ newline ∈ x.recvBuf := by
  simp [Conn.hasNl,Conn.newlineAt,List.idxOf_lt_length_iff]

theorem Conn.take_currlen (x : Conn) : x.recvBuf.take x.currlen = takeLine newline x.recvBuf := by
  rw [takeLine,Conn.currlen]
  split
  · rfl
  · rw [List.take_of_length_le (le_refl _),List.take_of_length_le]
    simp only [Conn.newlineAt] at *
    omega

/-- What the handler appends to the string after an unlock. -/
def Conn.leftover (x : Conn) : List UInt8 := x.recvBuf.drop (x.newlineAt + 1)

theorem Conn.length_leftover (x : Conn) :
    x.leftover.length = x.recvBuf.length - x.newlineAt - 1 := by
  rw [Conn.leftover,List.length_drop]
  omega

/-- A chunk extends the held string; its first newline sends the string off, and what
stands behind that newline is held next. -/
def feed (st : List (List UInt8) × List UInt8) (chunk : List UInt8) :
    List (List UInt8) × List UInt8 :=
  if newline ∈ chunk then
    (st.1 ++ [st.2 ++ takeLine newline chunk],chunk.drop (chunk.idxOf newline + 1))
  else (st.1,st.2 ++ chunk)

/-- The strings sent off for a sequence of chunks, and the one that is held. -/
def feeds (cs : List (List UInt8)) : List (List UInt8) × List UInt8 := cs.foldl feed ([],[])

theorem feeds_snoc (cs : List (List UInt8)) (chunk : List UInt8) :
    feeds (cs ++ [chunk]) = feed (feeds cs) chunk := by simp [feeds]

theorem feeds_flatten (cs : List (List UInt8)) : (feeds cs).1.flatten ++ (feeds cs).2 = cs.flatten := by
  induction cs using List.reverseRecOn with
  | nil => rfl
  | append_singleton cs chunk ih =>
    rw [feeds_snoc,List.flatten_concat,← ih,feed]
    split
    · have hsplit : takeLine newline chunk ++ chunk.drop (chunk.idxOf newline + 1) = chunk :=
        List.take_append_drop _ _
      simp only [List.flatten_concat,List.append_assoc,hsplit]
    · simp

theorem notMem_held {cs : List (List UInt8)} {b : UInt8} (h : b ∉ cs.flatten) : b ∉ (feeds cs).2 := by
  rw [← feeds_flatten] at h
  exact fun hb => h (List.mem_append_right _ hb)

/-- Less than a chunk, and behind it no newline. -/
def Unfinished (held : List UInt8) : Prop :=
  ∃ a b, held = a ++ b ∧ a.length < bufferSize ∧ newline ∉ b

/-- Less than a chunk, and behind it one line. -/
def Finished (held : List UInt8) : Prop :=
  ∃ a b, held = a ++ b ++ [newline] ∧ a.length < bufferSize ∧ newline ∉ b

theorem Unfinished.append {held bytes : List UInt8} (h : Unfinished held) (hn : newline ∉ bytes) :
    Unfinished (held ++ bytes) := by
  obtain ⟨a,b,rfl,ha,hb⟩ := h
  exact ⟨a,b ++ bytes,by simp,ha,by simp [hb,hn]⟩

theorem Unfinished.finish {held bytes : List UInt8} (h : Unfinished held) (hn : newline ∈ bytes) :
    Finished (held ++ takeLine newline bytes) := by
  obtain ⟨a,b,rfl,ha,hb⟩ := h
  rcases first_sep newline bytes with hnot | ⟨u,t,hu,rfl⟩
  · exact absurd hn hnot
  · rw [takeLine_append_sep hu]
    exact ⟨a,b ++ u,by simp,ha,by simp [hb,hu]⟩

theorem Finished.mem {held : List UInt8} (h : Finished held) : newline ∈ held := by
  obtain ⟨a,b,rfl,-,-⟩ := h
  simp

theorem Finished.rest_eq {held : List UInt8} (h : Finished held) : rest newline held = [] := by
  obtain ⟨a,b,rfl,-,hb⟩ := h
  rw [List.append_assoc,rest_append,← List.append_assoc]
  have hn : newline ∉ rest newline a ++ b := by simp [rest_notMem,hb]
  simpa using rest_append_sep hn []

theorem feed_shape {st : List (List UInt8) × List UInt8} {chunk : List UInt8}
    (h : (∀ p ∈ st.1, Finished p) ∧ Unfinished st.2) (hlen : chunk.length ≤ bufferSize) :
    (∀ p ∈ (feed st chunk).1, Finished p) ∧ Unfinished (feed st chunk).2 := by
  unfold feed
  split
  · rename_i hn
    have hpos := List.length_pos_of_mem hn
    refine ⟨?_,chunk.drop (chunk.idxOf newline + 1),[],by simp,?_,by simp⟩
    · intro p hp
      rcases List.mem_append.mp hp with hp | hp
      · exact h.1 p hp
      · rw [List.mem_singleton.mp hp]
        exact h.2.finish hn
    · rw [List.length_drop]
      omega
  · rename_i hn
    exact ⟨h.1,h.2.append hn⟩

/-- The shape of everything that is sent off or held. -/
theorem feeds_shape {cs : List (List UInt8)} (hlen : ∀ chunk ∈ cs, chunk.length ≤ bufferSize) :
    (∀ p ∈ (feeds cs).1, Finished p) ∧ Unfinished (feeds cs).2 := by
  induction cs using List.reverseRecOn with
  | nil => exact ⟨by simp [feeds],[],[],rfl,by decide,by simp⟩
  | append_singleton cs chunk ih =>
    rw [feeds_snoc]
    exact feed_shape (ih (fun c hc => hlen c (List.mem_append_left _ hc)))
      (hlen chunk (by simp))

/-- A handler over the chunks it received and the strings it appended. -/
def Framed (x : Conn) (cs ps : List (List UInt8)) : Prop :=
  match x.pc with
  | .start => x.buffer ≠ [] ∧ feeds cs = (ps,[])
  | .recv => ∃ held, cstr x.buffer = some held ∧ feeds cs = (ps,held)
  | .openFile | .seek | .stage =>
    ∃ held before, cstr x.buffer = some held ∧ cs = before ++ [x.recvBuf] ∧ feeds before = (ps,held)
  | .lock | .append =>
    ∃ held, cstr x.buffer = some held ∧ feeds cs = (ps ++ [held],x.leftover)
  | .rewind | .read | .send | .unlock | .rest => cstr x.buffer = some [] ∧ feeds cs = (ps,x.leftover)
  | _ => ps <+: (feeds cs).1

/-- At any time the appended strings are the first of those to be sent off. -/
theorem Framed.sentOff {x : Conn} {cs ps : List (List UInt8)} (h : Framed x cs ps) :
    ps <+: (feeds cs).1 := by
  have hfeed : ∀ (held chunk : List UInt8), ps <+: (feed (ps,held) chunk).1 := by
    intro held chunk
    unfold feed
    split <;> simp
  unfold Framed at h
  split at h
  · rw [h.2]
  · obtain ⟨held,-,hfeeds⟩ := h
    rw [hfeeds]
  iterate 3
    · obtain ⟨held,before,-,rfl,hfeeds⟩ := h
      rw [feeds_snoc,hfeeds]
      exact hfeed held _
  iterate 2
    · obtain ⟨held,-,hfeeds⟩ := h
      rw [hfeeds]
      apply List.prefix_append
  iterate 5
    · rw [h.2]
  · exact h

/-- The chunks and the appended strings of a connection, as its handler has them. -/
def FramedAt : (i : Thread) → Shared → Local i → Prop
  | .handler c => fun sh (x : Conn) =>
    (x.pc = .idle → chunks c sh.log = [] ∧ payloads c sh.log = []) ∧
    (∀ chunk ∈ chunks c sh.log, chunk.length ≤ bufferSize) ∧
    (0 ∉ received c sh.log → Framed x (chunks c sh.log) (payloads c sh.log))
  | .timer _ => fun _ _ => True

theorem framed_stage {x : Conn} {env : ReallocEnv} {buffer held : List UInt8} {maxbuflen : UInt64}
    (hnul : 0 ∉ x.recvBuf) (hbuf : cstr x.buffer = some held)
    (happend : appendString env x.buffer x.maxbuflen x.buflen x.recvBuf x.currlen =
      .ok (buffer,maxbuflen)) : cstr buffer = some (held ++ takeLine newline x.recvBuf) := by
  have hres := appendString_cstr hbuf happend
  rwa [Conn.take_currlen,untilNul_of_notMem] at hres
  exact fun h0 => hnul ((takeLine_isPrefix newline x.recvBuf).subset h0)

theorem framed_rest {x : Conn} {env : ReallocEnv} {buffer : List UInt8} {maxbuflen : UInt64}
    (hnul : 0 ∉ x.leftover) (hbuf : cstr x.buffer = some [])
    (happend : appendString env x.buffer x.maxbuflen
      (UInt64.ofNat (x.recvBuf.length - x.newlineAt - 1)) (x.recvBuf.drop (x.newlineAt + 1))
      (x.recvBuf.length - x.newlineAt - 1) = .ok (buffer,maxbuflen)) :
    cstr buffer = some x.leftover := by
  have hres := appendString_cstr hbuf happend
  rw [← Conn.length_leftover,← Conn.leftover,List.take_length,untilNul_of_notMem hnul] at hres
  simpa using hres

theorem HandlerStep.framed {charDevice : Bool} {self : ℕ} {sh sh' : Shared} {x x' : Conn} {m : Move}
    (h : HandlerStep charDevice self sh x m x' sh') (hnul : 0 ∉ received self sh.log)
    (hidle : x.pc = .idle → chunks self sh.log = [] ∧ payloads self sh.log = [])
    (hx : Framed x (chunks self sh.log) (payloads self sh.log)) :
    Framed x' (chunks self sh'.log) (payloads self sh'.log) := by
  cases h with
  | accept hpc =>
    simp only [Framed,Shared.claim_log,(hidle hpc).1,(hidle hpc).2]
    exact ⟨by simp [bufferSize],rfl⟩
  | syslog | requestCancel => simpa [Framed,Conn.leftover,Conn.newlineAt] using hx
  | start hlogs hpc =>
    simp only [Framed,hpc] at hx ⊢
    exact ⟨[],cstr_set_zero hx.1,hx.2⟩
  | recv hlogs hpc hne hlen =>
    simp only [Framed,hpc,Shared.record_log] at hx ⊢
    obtain ⟨held,hbuf,hfeeds⟩ := hx
    exact ⟨held,chunks self sh.log,hbuf,by simp,by simpa using hfeeds⟩
  | openFailed hlogs hpc | openFile hlogs hpc | seek hlogs hpc | send hlogs hpc =>
    simp only [Framed,hpc] at hx ⊢
    simpa [Conn.leftover,Conn.newlineAt] using hx
  | stage hlogs hpc happend =>
    simp only [Framed,hpc] at hx
    obtain ⟨held,before,hbuf,hcs,hfeeds⟩ := hx
    have hrecv : 0 ∉ x.recvBuf := by
      intro h0
      exact hnul (by rw [received,hcs]; simp [h0])
    have hbuf' := framed_stage hrecv hbuf happend
    have hfed : feeds (chunks self sh.log) = feed (payloads self sh.log,held) x.recvBuf := by
      rw [hcs,feeds_snoc,hfeeds]
    by_cases hn : newline ∈ x.recvBuf
    · rw [feed,if_pos hn] at hfed
      simp only [Framed,(x.hasNl_iff).mpr hn,if_true]
      exact ⟨_,hbuf',hfed⟩
    · rw [feed,if_neg hn] at hfed
      rw [takeLine_of_notMem hn] at hbuf'
      have hno : x.hasNl = false := Bool.eq_false_iff.mpr (mt x.hasNl_iff.mp hn)
      simp only [Framed,hno,Bool.false_eq_true,if_false]
      exact ⟨_,hbuf',hfed⟩
  | append hlogs hpc hpayload happend =>
    simp only [Framed,hpc,Shared.record_log] at hx ⊢
    obtain ⟨held,hbuf,hfeeds⟩ := hx
    obtain rfl := Option.some.inj (hbuf.symm.trans hpayload)
    refine ⟨cstr_clear hbuf,?_⟩
    simpa [Conn.leftover,Conn.newlineAt] using hfeeds
  | rest hlogs hpc happend =>
    simp only [Framed,hpc] at hx ⊢
    obtain ⟨hbuf,hfeeds⟩ := hx
    have hleft := notMem_held hnul
    rw [hfeeds] at hleft
    exact ⟨_,framed_rest hleft hbuf happend,hfeeds⟩
  | lock hlogs hpc | unlock hlogs hpc | rewind hlogs hpc | read hlogs hpc | readEnd hlogs hpc =>
    simpa [Framed,hpc,Conn.leftover,Conn.newlineAt] using hx
  | closeClient hlogs hpc | closeData hlogs hpc =>
    simpa [Framed] using hx.sentOff
  | _ => exact hx.sentOff

theorem HandlerStep.framedAt {charDevice : Bool} {self : ℕ} {sh sh' : Shared} {x x' : Conn} {m : Move}
    (h : HandlerStep charDevice self sh x m x' sh') (hx : FramedAt (.handler self) sh x) :
    FramedAt (.handler self) sh' x' := by
  obtain ⟨hidle,hlen,hframed⟩ := hx
  refine ⟨?_,?_,?_⟩
  · cases h with
    | syslog => exact hidle
    | requestCancel hne => exact fun hpc => absurd hpc hne
    | stage => simp only; split <;> simp
    | _ => exact fun hpc => Pc.noConfusion hpc
  · cases h with
    | recv hlogs hpc hne hle =>
      intro chunk hchunk
      rw [Shared.record_log,chunks_append,chunks_received] at hchunk
      rcases List.mem_append.mp hchunk with hold | hnew
      · exact hlen chunk hold
      · obtain rfl := List.mem_singleton.mp hnew
        exact hle
    | _ => simpa using hlen
  · intro hnul
    have hbefore : 0 ∉ received self sh.log := by
      rcases h.recorded with hlog | ⟨e,hlog,-⟩
      · rwa [hlog] at hnul
      · rw [hlog,received_append] at hnul
        exact fun h0 => hnul (List.mem_append_left _ h0)
    exact h.framed hbefore hidle (hframed hbefore)

theorem payloads_move {charDevice : Bool} {i : Thread} {c : ℕ} {sh sh' : Shared} {x x' : Local i}
    {a : Act i} (h : move charDevice i sh x a = .ok (x',sh')) (hc : .handler c ≠ i) :
    payloads c sh'.log = payloads c sh.log := by
  rcases move_log h with hlog | ⟨e,hlog,hthread⟩
  · rw [hlog]
  · rw [hlog,payloads_append]
    cases e with
    | appended j payload accepted =>
      obtain rfl : j = i := hthread
      rw [payloads_appended_of_ne hc.symm,List.append_nil]
    | _ => simp

theorem step_framed {charDevice : Bool} {s s' : Sys} {l : Label} (hs : Everywhere FramedAt s)
    (h : step (move charDevice) s l = .ok s') : Everywhere FramedAt s' := by
  refine everywhere_of_step (fun _ _ _ => trivial) ?_ ?_ h
  · intro c m x sh _ hstep
    exact hstep.framedAt (hs (.handler c))
  · intro c i x sh a hmove hi
    have hc : FramedAt (.handler c) s.shared (s.conn c) := hs (.handler c)
    simp only [FramedAt,received] at hc ⊢
    rwa [chunks_move hmove hi,payloads_move hmove hi]

theorem boot_framed : Everywhere FramedAt boot := by
  intro i
  cases i <;> simp [FramedAt,boot,Conn.fresh,Framed,chunks,payloads]

theorem visits_framed {charDevice : Bool} {ls : List Label} {s : Sys}
    (h : Visits (move charDevice) boot ls s) : Everywhere FramedAt s :=
  h.always boot_framed (fun _ _ _ hs hstep => step_framed hs hstep)

end Aesd.Server
