import Aesd.Server.Framing

/-! # The room of a handler's string

append_string compares maxbuflen with a length that its caller counts. A NUL among the
received bytes shortens the string and not the count, so that the count is an upper
bound of the string. Whatever is received, the string and its NUL stay in their block,
and no size wraps while the bytes behind the last newline are fewer than 2^61.
-/
namespace Aesd.Server
open CharDevice Kernel CString Interleaving Lines

/-! ## One append_string -/

theorem length_realloc (block : List UInt8) (size : ℕ) (junk : ℕ → UInt8) :
    (realloc block size junk).length = size := by
  simp only [realloc,List.length_append,List.length_take,List.length_map,List.length_range]
  omega

theorem toNat_add_ofNat {a : UInt64} {n : ℕ} (h : a.toNat + n < 2^64) :
    (a + UInt64.ofNat n).toNat = a.toNat + n := by
  rw [UInt64.toNat_add,UInt64.toNat_ofNat']
  omega

theorem exists_strncat {dst held src : List UInt8} {n : ℕ} (hdst : cstr dst = some held)
    (hsrc : n ≤ src.length) (hroom : held.length + n + 1 ≤ dst.length) :
    ∃ dst', strncat dst src n = some dst' := by
  have hadded : (untilNul (src.take n)).length ≤ n :=
    (untilNul_sublist _).length_le.trans (List.length_take_le _ _)
  unfold strncat
  simp only [hdst]
  rw [if_neg (fun h => absurd h.1 (by omega)),if_neg (by omega)]
  exact ⟨_,rfl⟩

theorem appendString_sized {env : ReallocEnv} {buf buf' inBuf : List UInt8}
    {maxbuflen maxbuflen' buflen : UInt64} {n : ℕ} (hsize : buf.length = maxbuflen.toNat)
    (hmax : maxbuflen.toNat ≤ userSpace)
    (h : appendString env buf maxbuflen buflen inBuf n = .ok (buf',maxbuflen')) :
    buf'.length = maxbuflen'.toNat ∧ maxbuflen'.toNat ≤ userSpace := by
  have hcat : ∀ {b : List UInt8} {max : UInt64}, b.length = max.toNat → max.toNat ≤ userSpace →
      (inBounds (strncat b inBuf n)).map (fun b => (b,max)) = .ok (buf',maxbuflen') →
      buf'.length = maxbuflen'.toNat ∧ maxbuflen'.toNat ≤ userSpace := by
    intro b max hb hle hmap
    cases hs : strncat b inBuf n with
    | none => simp [hs,inBounds,Except.map] at hmap
    | some b' =>
      simp only [hs,inBounds,Except.map,Except.ok.injEq,Prod.mk.injEq] at hmap
      obtain ⟨rfl,rfl⟩ := hmap
      obtain ⟨d,-,-,hlen⟩ := cstr_strncat hs
      exact ⟨hlen.trans hb,hle⟩
  unfold appendString at h
  split at h
  · dsimp only at h
    split at h
    · rename_i hgranted
      exact hcat (length_realloc _ _ _) hgranted.2 h
    · simp at h
  · exact hcat hsize hmax h

/-- What a call of append_string finds, and that it succeeds with a granted realloc. -/
structure Fits (buf : List UInt8) (maxbuflen buflen : UInt64) (inBuf : List UInt8) (n : ℕ) : Prop where
  block : buf.length = maxbuflen.toNat
  room : ∃ held, cstr buf = some held ∧ held.length ≤ buflen.toNat
  source : n ≤ inBuf.length
  /-- the length that maxbuflen is compared with -/
  need : (buflen + UInt64.ofNat n + 1).toNat = buflen.toNat + n + 1
  /-- the length that realloc is asked for -/
  size : (maxbuflen + (buflen + 2 * UInt64.ofNat n)).toNat = maxbuflen.toNat + (buflen.toNat + 2 * n)
  result : ∀ env : ReallocEnv, env.granted = true → ∃ buf' maxbuflen' held',
    appendString env buf maxbuflen buflen inBuf n = .ok (buf',maxbuflen') ∧
      buf'.length = maxbuflen'.toNat ∧ cstr buf' = some held' ∧ held'.length + 1 ≤ maxbuflen'.toNat

/-- A count below 2^61 and a chunk that bounds the string is all that a call needs. -/
theorem fits_of_room {buf held inBuf : List UInt8} {maxbuflen buflen : UInt64} {n : ℕ}
    (hsize : buf.length = maxbuflen.toNat) (hmax : maxbuflen.toNat ≤ userSpace)
    (hbuf : cstr buf = some held) (hroom : held.length ≤ buflen.toNat)
    (hlen : buflen.toNat < 2^61 + bufferSize) (hn : n ≤ bufferSize) (hsrc : n ≤ inBuf.length) :
    Fits buf maxbuflen buflen inBuf n := by
  have hlt := length_lt_of_cstr hbuf
  have hneed : (buflen + UInt64.ofNat n + 1).toNat = buflen.toNat + n + 1 := by
    simp only [bufferSize] at hn hlen
    rw [UInt64.toNat_add,toNat_add_ofNat (by omega),UInt64.toNat_one]
    omega
  have hgrown : (maxbuflen + (buflen + 2 * UInt64.ofNat n)).toNat =
      maxbuflen.toNat + (buflen.toNat + 2 * n) := by
    have htwo : 2 * UInt64.ofNat n = UInt64.ofNat (2 * n) := (UInt64.ofNat_mul 2 n).symm
    simp only [bufferSize] at hn hlen
    simp only [userSpace] at hmax
    rw [htwo,UInt64.toNat_add,toNat_add_ofNat (by omega)]
    omega
  refine ⟨hsize,⟨held,hbuf,hroom⟩,hsrc,hneed,hgrown,fun env hgranted => ?_⟩
  have hdone : ∃ buf' maxbuflen', appendString env buf maxbuflen buflen inBuf n = .ok (buf',maxbuflen') := by
    unfold appendString
    split
    · rename_i hless
      have hless : maxbuflen.toNat < buflen.toNat + n + 1 := by
        rwa [UInt64.lt_iff_toNat_lt,hneed] at hless
      -- the block was too small, so that twice the count and three chunks bound the new size
      have hle : maxbuflen.toNat + (buflen.toNat + 2 * n) ≤ userSpace := by
        simp only [bufferSize] at hn hlen
        simp only [userSpace]
        omega
      simp only [hgrown]
      rw [if_pos ⟨hgranted,hle⟩]
      have hkeep := cstr_realloc_of_lt env.junk hbuf
        (by omega : held.length < maxbuflen.toNat + (buflen.toNat + 2 * n))
      obtain ⟨dst',hdst⟩ := exists_strncat hkeep hsrc (by rw [length_realloc]; omega)
      exact ⟨dst',maxbuflen + (buflen + 2 * UInt64.ofNat n),by simp [hdst,inBounds,Except.map]⟩
    · rename_i hless
      have hless : buflen.toNat + n + 1 ≤ maxbuflen.toNat := by
        rwa [UInt64.lt_iff_toNat_lt,hneed,not_lt] at hless
      obtain ⟨dst',hdst⟩ := exists_strncat hbuf hsrc (by omega)
      exact ⟨dst',maxbuflen,by simp [hdst,inBounds,Except.map]⟩
  obtain ⟨buf',maxbuflen',happend⟩ := hdone
  have hsize' := (appendString_sized hsize hmax happend).1
  have hbuf' := appendString_cstr hbuf happend
  exact ⟨buf',maxbuflen',_,happend,hsize',hbuf',hsize' ▸ length_lt_of_cstr hbuf'⟩

/-! ## Over a run -/

/-- At no time 2^61 bytes or more had come in since the last newline. -/
def ShortLines (cs : List (List UInt8)) : Prop :=
  ∀ before, before <+: cs → (rest newline before.flatten).length < 2^61

theorem ShortLines.mono {cs cs' : List (List UInt8)} (h : ShortLines cs') (hcs : cs <+: cs') :
    ShortLines cs := fun before hb => h before (hb.trans hcs)

theorem shortLines_of_length {cs : List (List UInt8)} (h : cs.flatten.length < 2^61) : ShortLines cs := by
  rintro before ⟨after,rfl⟩
  have hsplit := congrArg List.length (flatten_lines newline before.flatten)
  rw [List.flatten_append] at h
  simp only [List.length_append] at h hsplit
  omega

/-- What is held but less than a chunk came in since the last newline. -/
theorem length_feeds_lt {cs before : List (List UInt8)} (hlen : ∀ chunk ∈ cs, chunk.length ≤ bufferSize)
    (hshort : ShortLines cs) (hb : before <+: cs) : (feeds before).2.length < 2^61 + bufferSize := by
  obtain ⟨-,u,v,hheld,hu,hv⟩ := feeds_shape (fun chunk hc => hlen chunk (hb.subset hc))
  have hflat := feeds_flatten before
  rw [hheld,← List.append_assoc] at hflat
  have hnot : newline ∉ rest newline ((feeds before).1.flatten ++ u) ++ v := by
    simp [rest_notMem,hv]
  have hrest : rest newline before.flatten = rest newline ((feeds before).1.flatten ++ u) ++ v := by
    rw [← hflat,rest_append,rest_of_notMem hnot]
  have hlt := hshort before hb
  rw [hrest,List.length_append] at hlt
  rw [hheld,List.length_append]
  omega

/-- The block of a handler has maxbuflen bytes, in the beginning BUFFER_SIZE. -/
structure Sized (x : Conn) : Prop where
  block : x.buffer.length = x.maxbuflen.toNat
  max : x.maxbuflen.toNat ≤ userSpace
  chunk : x.recvBuf.length ≤ bufferSize
  start : x.pc = .start → x.maxbuflen = UInt64.ofNat bufferSize

def SizedAt : (i : Thread) → Shared → Local i → Prop
  | .handler _ => fun _ (x : Conn) => Sized x
  | .timer _ => fun _ _ => True

theorem HandlerStep.sized {charDevice : Bool} {self : ℕ} {sh sh' : Shared} {x x' : Conn} {m : Move}
    (h : HandlerStep charDevice self sh x m x' sh') (hx : Sized x) : Sized x' := by
  obtain ⟨hblock,hmax,hchunk,hstart⟩ := hx
  cases h with
  | accept =>
    exact ⟨by simp [bufferSize],by simp [bufferSize,userSpace],Nat.zero_le _,fun _ => rfl⟩
  | refuse => exact ⟨rfl,Nat.zero_le _,Nat.zero_le _,by simp⟩
  | syslog | requestCancel => exact ⟨hblock,hmax,hchunk,hstart⟩
  | start | append => exact ⟨by simpa using hblock,hmax,hchunk,by simp⟩
  | recv hlogs hpc hne hle => exact ⟨hblock,hmax,hle,by simp⟩
  | stage hlogs hpc happend =>
    obtain ⟨hblock',hmax'⟩ := appendString_sized hblock hmax happend
    refine ⟨hblock',hmax',hchunk,?_⟩
    dsimp only
    split <;> simp
  | rest hlogs hpc happend =>
    obtain ⟨hblock',hmax'⟩ := appendString_sized hblock hmax happend
    exact ⟨hblock',hmax',hchunk,by simp⟩
  | _ => exact ⟨hblock,hmax,hchunk,by simp⟩

theorem step_sized {charDevice : Bool} {s s' : Sys} {l : Label} (hs : Everywhere SizedAt s)
    (h : step (move charDevice) s l = .ok s') : Everywhere SizedAt s' := by
  refine everywhere_of_step (fun _ _ _ => trivial) ?_ ?_ h
  · intro c m x sh _ hstep
    exact hstep.sized (hs (.handler c))
  · exact fun c _ _ _ _ _ _ => hs (.handler c)

theorem boot_sized : Everywhere SizedAt boot := by
  intro i
  cases i with
  | handler c => exact ⟨rfl,Nat.zero_le _,Nat.zero_le _,by simp [boot,Conn.fresh]⟩
  | timer t => trivial

theorem visits_sized {charDevice : Bool} {ls : List Label} {s : Sys}
    (h : Visits (move charDevice) boot ls s) : Everywhere SizedAt s :=
  h.always boot_sized (fun _ _ _ hs hstep => step_sized hs hstep)

/-- A handler's string and its counts over the chunks it received. -/
def Counted (x : Conn) (cs : List (List UInt8)) : Prop :=
  match x.pc with
  | .start => x.buffer ≠ [] ∧ cs = []
  | .recv => ∃ held, cstr x.buffer = some held ∧ held.length ≤ x.buflen.toNat ∧
      x.buflen.toNat = (feeds cs).2.length
  | .openFile | .seek | .stage => ∃ held before, cstr x.buffer = some held ∧
      held.length ≤ x.buflen.toNat ∧ cs = before ++ [x.recvBuf] ∧
      x.buflen.toNat = (feeds before).2.length
  | .lock | .append => ∃ held, cstr x.buffer = some held ∧ newline ∈ x.recvBuf ∧
      (feeds cs).2 = x.leftover
  | .rewind | .read | .send | .unlock | .rest => cstr x.buffer = some [] ∧ newline ∈ x.recvBuf ∧
      (feeds cs).2 = x.leftover
  | _ => True

theorem Conn.currlen_le (x : Conn) : x.currlen ≤ x.recvBuf.length := by
  rw [Conn.currlen]
  split <;> omega

theorem Conn.currlen_of_notMem {x : Conn} (h : newline ∉ x.recvBuf) : x.currlen = x.recvBuf.length := by
  have hidx := List.idxOf_eq_length_iff.mpr h
  rw [Conn.currlen,Conn.newlineAt,hidx,if_neg (by omega)]

theorem HandlerStep.counted {charDevice : Bool} {self : ℕ} {sh sh' : Shared} {x x' : Conn} {m : Move}
    (h : HandlerStep charDevice self sh x m x' sh')
    (hlen : ∀ chunk ∈ chunks self sh.log, chunk.length ≤ bufferSize)
    (hshort : ShortLines (chunks self sh.log)) (hidle : x.pc = .idle → chunks self sh.log = [])
    (hx : Counted x (chunks self sh.log)) : Counted x' (chunks self sh'.log) := by
  cases h with
  | accept hpc =>
    simp only [Counted,Shared.claim_log,hidle hpc]
    exact ⟨by simp [bufferSize],trivial⟩
  | syslog | requestCancel => simpa [Counted,Conn.leftover,Conn.newlineAt] using hx
  | start hlogs hpc =>
    simp only [Counted,hpc] at hx ⊢
    obtain ⟨hne,hcs⟩ := hx
    exact ⟨[],cstr_set_zero hne,Nat.zero_le _,by simp [hcs,feeds]⟩
  | recv hlogs hpc hne hle =>
    simp only [Counted,hpc,Shared.record_log] at hx ⊢
    obtain ⟨held,hbuf,hroom,hcount⟩ := hx
    exact ⟨held,chunks self sh.log,hbuf,hroom,by simp,hcount⟩
  | openFailed hlogs hpc | openFile hlogs hpc | seek hlogs hpc | send hlogs hpc =>
    simp only [Counted,hpc] at hx ⊢
    simpa [Conn.leftover,Conn.newlineAt] using hx
  | stage hlogs hpc happend =>
    simp only [Counted,hpc] at hx
    obtain ⟨held,before,hbuf,hroom,hcs,hcount⟩ := hx
    have hbuf' := appendString_cstr hbuf happend
    have hfed : feeds (chunks self sh.log) = feed (feeds before) x.recvBuf := by
      rw [hcs,feeds_snoc]
    by_cases hn : newline ∈ x.recvBuf
    · rw [feed,if_pos hn] at hfed
      simp only [Counted,(x.hasNl_iff).mpr hn,if_true]
      exact ⟨_,hbuf',hn,congrArg Prod.snd hfed⟩
    · rw [feed,if_neg hn] at hfed
      have hno : x.hasNl = false := Bool.eq_false_iff.mpr (mt x.hasNl_iff.mp hn)
      have hall := Conn.currlen_of_notMem hn
      have hchunk : x.recvBuf.length ≤ bufferSize := hlen _ (by simp [hcs])
      have hprefix : before <+: chunks self sh.log := by simp [hcs]
      have hbound := length_feeds_lt hlen hshort hprefix
      have hsum : (x.buflen + UInt64.ofNat x.currlen).toNat = x.buflen.toNat + x.recvBuf.length := by
        simp only [bufferSize] at hchunk hbound
        rw [toNat_add_ofNat (by omega),hall]
      have hadded : (untilNul (x.recvBuf.take x.currlen)).length ≤ x.recvBuf.length := by
        rw [hall,List.take_length]
        exact (untilNul_sublist _).length_le
      simp only [Counted,hno,Bool.false_eq_true,if_false]
      refine ⟨_,hbuf',?_,?_⟩
      · rw [hsum,List.length_append]
        omega
      · rw [hsum,hfed,hcount,List.length_append]
  | append hlogs hpc hpayload happend =>
    simp only [Counted,hpc,Shared.record_log] at hx ⊢
    obtain ⟨held,hbuf,hn,hfeeds⟩ := hx
    refine ⟨cstr_clear hbuf,hn,?_⟩
    simpa [Conn.leftover,Conn.newlineAt] using hfeeds
  | rest hlogs hpc happend =>
    simp only [Counted,hpc] at hx ⊢
    obtain ⟨hbuf,hn,hfeeds⟩ := hx
    have hbuf' := appendString_cstr hbuf happend
    have hleft : x.leftover.length < 2^61 + bufferSize := by
      rw [← hfeeds]
      exact length_feeds_lt hlen hshort List.prefix_rfl
    have hcount : (UInt64.ofNat (x.recvBuf.length - x.newlineAt - 1)).toNat = x.leftover.length := by
      simp only [bufferSize] at hleft
      rw [← Conn.length_leftover]
      exact UInt64.toNat_ofNat_of_lt' (hleft.trans (by decide))
    refine ⟨_,hbuf',?_,?_⟩
    · rw [hcount,← Conn.length_leftover,← Conn.leftover,List.take_length,List.nil_append]
      exact (untilNul_sublist _).length_le
    · rw [hcount,hfeeds]
  | lock hlogs hpc | unlock hlogs hpc | rewind hlogs hpc | read hlogs hpc | readEnd hlogs hpc =>
    simpa [Counted,hpc,Conn.leftover,Conn.newlineAt] using hx
  | _ => simp [Counted]

def CountedAt : (i : Thread) → Shared → Local i → Prop
  | .handler c => fun sh (x : Conn) => ShortLines (chunks c sh.log) → Counted x (chunks c sh.log)
  | .timer _ => fun _ _ => True

theorem chunks_isPrefix {c : ℕ} {log log' : List Event} (h : log <+: log') :
    chunks c log <+: chunks c log' := by
  obtain ⟨more,rfl⟩ := h
  simp

theorem step_counted {charDevice : Bool} {s s' : Sys} {l : Label} (hf : Everywhere FramedAt s)
    (hs : Everywhere CountedAt s) (h : step (move charDevice) s l = .ok s') : Everywhere CountedAt s' := by
  refine everywhere_of_step (fun _ _ _ => trivial) ?_ ?_ h
  · intro c m x sh _ hstep hshort
    have hlog : s.shared.log <+: sh.log := by
      rcases hstep.recorded with hlog | ⟨e,hlog,-⟩ <;> simp [hlog]
    have hbefore := hshort.mono (chunks_isPrefix hlog)
    obtain ⟨hidle,hlen,-⟩ := hf (.handler c)
    exact hstep.counted hlen hbefore (fun hpc => (hidle hpc).1) (hs (.handler c) hbefore)
  · intro c i x sh a hmove hi
    have hc : CountedAt (.handler c) s.shared (s.conn c) := hs (.handler c)
    simp only [CountedAt] at hc ⊢
    rwa [chunks_move hmove hi]

theorem visits_counted {charDevice : Bool} {ls : List Label} {s : Sys}
    (h : Visits (move charDevice) boot ls s) : Everywhere CountedAt s := by
  have hall := h.always (I := fun t => Everywhere FramedAt t ∧ Everywhere CountedAt t) ?_ ?_
  · exact hall.2
  · refine ⟨boot_framed,?_⟩
    intro i
    cases i <;> simp [CountedAt,boot,Conn.fresh,Counted]
  · intro t l t' ht hstep
    exact ⟨step_framed ht.1 hstep,step_counted ht.1 ht.2 hstep⟩

/-- Every call of append_string finds its string in the room it counts with, and leaves it
with its NUL in the block, whatever bytes a client sends. -/
theorem buffer_fits {charDevice : Bool} {ls : List Label} {s : Sys}
    (hs : Visits (move charDevice) boot ls s) (c : ℕ) (hshort : ShortLines (chunks c s.shared.log)) :
    (s.conn c).buffer.length = (s.conn c).maxbuflen.toNat ∧
    ((s.conn c).pc = .start → (s.conn c).maxbuflen = UInt64.ofNat bufferSize) ∧
    ((s.conn c).pc = .stage → Fits (s.conn c).buffer (s.conn c).maxbuflen (s.conn c).buflen
      (s.conn c).recvBuf (s.conn c).currlen) ∧
    ((s.conn c).pc = .rest → (s.conn c).newlineAt < (s.conn c).recvBuf.length ∧
      Fits (s.conn c).buffer (s.conn c).maxbuflen
        (UInt64.ofNat ((s.conn c).recvBuf.length - (s.conn c).newlineAt - 1))
        ((s.conn c).recvBuf.drop ((s.conn c).newlineAt + 1))
        ((s.conn c).recvBuf.length - (s.conn c).newlineAt - 1)) := by
  obtain ⟨-,hlen,-⟩ : FramedAt (.handler c) s.shared (s.conn c) := visits_framed hs (.handler c)
  obtain ⟨hblock,hmax,hchunk,hstart⟩ : Sized (s.conn c) := visits_sized hs (.handler c)
  have hcounted : Counted (s.conn c) (chunks c s.shared.log) := visits_counted hs (.handler c) hshort
  refine ⟨hblock,hstart,?_,?_⟩
  · intro hpc
    simp only [Counted,hpc] at hcounted
    obtain ⟨held,before,hbuf,hroom,hcs,hcount⟩ := hcounted
    have hprefix : before <+: chunks c s.shared.log := by simp [hcs]
    have hlt := length_feeds_lt hlen hshort hprefix
    have hle := (s.conn c).currlen_le
    exact fits_of_room hblock hmax hbuf hroom (by omega) (by omega) hle
  · intro hpc
    simp only [Counted,hpc] at hcounted
    obtain ⟨hbuf,hn,-⟩ := hcounted
    have hle : (s.conn c).recvBuf.length - (s.conn c).newlineAt - 1 ≤ bufferSize := by omega
    refine ⟨List.idxOf_lt_length_iff.mpr hn,fits_of_room hblock hmax hbuf (Nat.zero_le _) ?_ hle ?_⟩
    · rw [UInt64.toNat_ofNat']
      omega
    · rw [← Conn.leftover,Conn.length_leftover]

set_option maxRecDepth 4000

/-- A client sends "a", NUL, "b", and then "c" and a newline, up to the second append_string. -/
def nulChunksRun : List Label :=
  accepted 0 4 ++ calls 0 [.recv (some [97,0,98]),.openFile 5,.seek true,.stage grantingRealloc,
    .recv (some [99,10]),.openFile 6,.seek true]

theorem nulChunksRun_fits : ∃ s : Sys, run (move true) boot nulChunksRun = .ok s ∧
    ShortLines (chunks 0 s.shared.log) ∧ (s.conn 0).pc = .stage ∧ (s.conn 0).buflen = 3 ∧
    cstr (s.conn 0).buffer = some [97] ∧
    Fits (s.conn 0).buffer (s.conn 0).maxbuflen (s.conn 0).buflen (s.conn 0).recvBuf
      (s.conn 0).currlen := by
  obtain ⟨s,hrun,hend⟩ := exists_of_returns
    (show returns (fun s : Sys => chunks 0 s.shared.log = [[97,0,98],[99,10]] ∧
      (s.conn 0).pc = .stage ∧ (s.conn 0).buflen = 3 ∧ cstr (s.conn 0).buffer = some [97])
        (run (move true) boot nulChunksRun) = true by decide)
  obtain ⟨hchunks,hpc,hcount,hbuf⟩ := of_decide_eq_true hend
  have hshort : ShortLines (chunks 0 s.shared.log) := by
    rw [hchunks]
    exact shortLines_of_length (by decide)
  exact ⟨s,hrun,hshort,hpc,hcount,hbuf,(buffer_fits (Visits.of_run hrun) 0 hshort).2.2.1 hpc⟩

end Aesd.Server
