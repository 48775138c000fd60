import Aesd.Server.Response

/-! # Which lines of a client the device keeps

A chunk makes the handler append at most once, and a write takes one line only. So a
chunk with several newlines costs a line for each newline but one: the lines stay in
the string, every later write stores an older line than it should, and the remainder
of the string is dropped with the next write.
-/
namespace Aesd.Server
open CharDevice Kernel CString Interleaving Lines Window

/-- Newlines beyond the first in each of the last n chunks that have one. -/
def extraNewlines (cs : List (List UInt8)) (n : ℕ) : ℕ :=
  (((cs.filter (fun chunk => decide (newline ∈ chunk))).rtake n).map
    (fun chunk => chunk.count newline - 1)).sum

theorem extraNewlines_snoc_of_notMem {chunk : List UInt8} (hn : newline ∉ chunk)
    (cs : List (List UInt8)) (n : ℕ) : extraNewlines (cs ++ [chunk]) n = extraNewlines cs n := by
  simp [extraNewlines,hn]

theorem extraNewlines_snoc_of_mem {chunk : List UInt8} (hn : newline ∈ chunk)
    (cs : List (List UInt8)) (n : ℕ) :
    extraNewlines (cs ++ [chunk]) (n + 1) = chunk.count newline - 1 + extraNewlines cs n := by
  simp [extraNewlines,hn,List.rtake_concat_succ,add_comm]

theorem count_drop_newline {chunk : List UInt8} (hn : newline ∈ chunk) :
    (chunk.drop (chunk.idxOf newline + 1)).count newline = chunk.count newline - 1 := by
  have hsplit : takeLine newline chunk ++ chunk.drop (chunk.idxOf newline + 1) = chunk :=
    List.take_append_drop _ _
  have hone : (takeLine newline chunk).count newline = 1 := by
    rcases first_sep newline chunk with hnot | ⟨u,t,hu,rfl⟩
    · exact absurd hn hnot
    · rw [takeLine_append_sep hu]
      simp [List.count_eq_zero_of_not_mem hu]
  have hcount := congrArg (List.count newline) hsplit
  rw [List.count_append,hone] at hcount
  omega

/-- The held string has the newlines beyond the first of the last chunk with one. -/
theorem count_held (cs : List (List UInt8)) : (feeds cs).2.count newline = extraNewlines cs 1 := by
  induction cs using List.reverseRecOn with
  | nil => rfl
  | append_singleton cs chunk ih =>
    rw [feeds_snoc,feed]
    split
    · rename_i hn
      rw [extraNewlines_snoc_of_mem hn,count_drop_newline hn]
      simp [extraNewlines]
    · rename_i hn
      rw [extraNewlines_snoc_of_notMem hn,List.count_append,List.count_eq_zero_of_not_mem hn]
      exact ih

theorem lines_feeds {cs : List (List UInt8)} (hlen : ∀ chunk ∈ cs, chunk.length ≤ bufferSize)
    (more : List UInt8) : lines newline (cs.flatten ++ more) =
      lines newline (feeds cs).1.flatten ++ lines newline ((feeds cs).2 ++ more) := by
  rw [← feeds_flatten cs,List.append_assoc,lines_append,
    rest_flatten_finished (feeds_shape hlen).1,List.nil_append]

/-- Counted from the end, the line that the driver keeps of the i-th string sent off is
behind its place in the stream by the extra newlines of the last i + 2 such chunks. -/
theorem getElem?_reverse_feeds {cs : List (List UInt8)}
    (hlen : ∀ chunk ∈ cs, chunk.length ≤ bufferSize) (i : ℕ) :
    ((feeds cs).1.map (takeLine newline)).reverse[i]? =
      (lines newline cs.flatten).reverse[i + extraNewlines cs (i + 2)]? := by
  induction cs using List.reverseRecOn generalizing i with
  | nil => simp [feeds]
  | append_singleton cs chunk ih =>
    have hlen' : ∀ chunk ∈ cs, chunk.length ≤ bufferSize :=
      fun c hc => hlen c (List.mem_append_left _ hc)
    rw [feeds_snoc,feed,List.flatten_concat]
    split
    · rename_i hn
      rw [extraNewlines_snoc_of_mem hn]
      cases i with
      | zero =>
        -- the driver keeps the first line of the held string and the chunk
        have hpos := List.count_pos_iff.mpr hn
        have hmem : newline ∈ (feeds cs).2 ++ chunk := List.mem_append_right _ hn
        have hfirst := getElem?_reverse_lines hmem
        rw [List.count_append,Nat.add_sub_assoc hpos,add_comm,← Nat.zero_add (_ + _)] at hfirst
        rw [← count_held,lines_feeds hlen',List.reverse_append,
          List.getElem?_append_left (List.getElem?_eq_some_iff.mp hfirst).1,hfirst,
          ← takeLine_append_takeLine]
        simp
      | succ i =>
        have hpos := List.count_pos_iff.mpr hn
        have hnew : (lines newline (rest newline cs.flatten ++ chunk)).length = chunk.count newline := by
          rw [length_lines,List.count_append,List.count_eq_zero_of_not_mem (rest_notMem _ _),Nat.zero_add]
        rw [lines_append,List.reverse_append,List.getElem?_append_right (by simp; omega),
          List.length_reverse,hnew]
        simp only [List.map_append,List.map_singleton,List.reverse_append,List.reverse_singleton,
          List.singleton_append,List.getElem?_cons_succ]
        rw [ih hlen' i,show i + 1 + 1 = i + 2 from rfl]
        congr 1
        omega
    · rename_i hn
      have hsame : lines newline (cs.flatten ++ chunk) = lines newline cs.flatten := by
        have hnot : newline ∉ rest newline cs.flatten ++ chunk := by simp [rest_notMem,hn]
        rw [lines_append,lines_of_notMem hnot,List.append_nil]
      rw [hsame,extraNewlines_snoc_of_notMem hn]
      exact ih hlen' i

/-- Each of the last ten lines has the bytes of the line that is stored in its place:
the one that many lines before it as there are extra newlines so far back. -/
def LinesKept (cs : List (List UInt8)) : Prop :=
  ∀ i < 10, (lines newline cs.flatten).reverse[i + extraNewlines cs (i + 2)]? =
    (lines newline cs.flatten).reverse[i]?

theorem rtake_feeds_eq_iff {cs : List (List UInt8)}
    (hlen : ∀ chunk ∈ cs, chunk.length ≤ bufferSize) :
    ((feeds cs).1.map (takeLine newline)).rtake 10 = (lines newline cs.flatten).rtake 10 ↔
      LinesKept cs := by
  rw [rtake_eq_iff]
  simp only [getElem?_reverse_feeds hlen,LinesKept]

theorem extraNewlines_mono (cs : List (List UInt8)) {m n : ℕ} (h : m ≤ n) :
    extraNewlines cs m ≤ extraNewlines cs n :=
  ((rtake_suffix_rtake _ h).sublist.map _).sum_le_sum (by simp)

theorem linesKept_of_extraNewlines {cs : List (List UInt8)} (h : extraNewlines cs 11 = 0) :
    LinesKept cs := by
  intro i hi
  have hle := extraNewlines_mono cs (show i + 2 ≤ 11 by omega)
  rw [show extraNewlines cs (i + 2) = 0 by omega,Nat.add_zero]

theorem length_filter_le_lines (cs : List (List UInt8)) :
    (cs.filter (fun chunk => decide (newline ∈ chunk))).length ≤ (lines newline cs.flatten).length := by
  rw [length_lines]
  induction cs with
  | nil => simp
  | cons chunk cs ih =>
    rw [List.flatten_cons,List.count_append]
    by_cases hn : newline ∈ chunk
    · have hpos := List.count_pos_iff.mpr hn
      simp only [List.filter_cons,hn,decide_true,if_true,List.length_cons]
      omega
    · simp only [List.filter_cons,hn,decide_false,Bool.false_eq_true,if_false]
      omega

/-- Different lines do not hide a displacement. -/
theorem extraNewlines_of_linesKept {cs : List (List UInt8)} (hkept : LinesKept cs)
    (hnodup : (lines newline cs.flatten).Nodup) : extraNewlines cs 11 = 0 := by
  have hfew := length_filter_le_lines cs
  generalize hL : (lines newline cs.flatten).length = L at hfew
  rcases Nat.eq_zero_or_pos L with rfl | hpos
  · have hnil := List.eq_nil_of_length_eq_zero (Nat.le_zero.mp hfew)
    simp [extraNewlines,hnil]
  · -- the oldest of the last ten lines
    obtain ⟨i,hi,hiL,hall⟩ : ∃ i, i < 10 ∧ i < L ∧ extraNewlines cs 11 = extraNewlines cs (i + 2) := by
      by_cases hten : 10 ≤ L
      · exact ⟨9,by omega,by omega,rfl⟩
      · refine ⟨L - 1,by omega,by omega,?_⟩
        rw [extraNewlines,rtake_of_length_le (by omega),extraNewlines,rtake_of_length_le (by omega)]
    have hsame := hkept i hi
    have hlt : i < (lines newline cs.flatten).reverse.length := by simp [hL,hiL]
    have heq := (List.getElem?_inj hlt (List.nodup_reverse.mpr hnodup)).mp hsame.symm
    omega

/-- No NUL bytes, and every line fits into one write and is no seek command. -/
structure Plain (stream : List UInt8) : Prop where
  nul : 0 ∉ stream
  short : ∀ line ∈ lines newline stream, line.length ≤ maxRwCount
  noSeek : ∀ line ∈ lines newline stream, ¬ matchCmd <:+: line

theorem Plain.of_append {stream more : List UInt8} (h : Plain (stream ++ more)) : Plain stream where
  nul h0 := h.nul (List.mem_append_left _ h0)
  short line hline := h.short line (by rw [lines_append]; exact List.mem_append_left _ hline)
  noSeek line hline := h.noSeek line (by rw [lines_append]; exact List.mem_append_left _ hline)

/-- A string sent off consists of lines of the stream, so the seek prefix, which has no
newline, is in none. -/
theorem Plain.payload {cs : List (List UInt8)} (h : Plain cs.flatten)
    (hlen : ∀ chunk ∈ cs, chunk.length ≤ bufferSize) {p : List UInt8} (hp : p ∈ (feeds cs).1) :
    ¬ matchCmd <:+: p := by
  intro hin
  obtain ⟨hshape,-⟩ := feeds_shape hlen
  obtain ⟨ps,qs,hsplit⟩ := List.append_of_mem hp
  have hsub : ∀ line ∈ lines newline p, line ∈ lines newline cs.flatten := by
    intro line hline
    have hstart : rest newline ps.flatten = [] :=
      rest_flatten_finished (fun q hq => hshape q (by rw [hsplit]; exact List.mem_append_left _ hq))
    rw [← feeds_flatten cs,hsplit,List.flatten_append,List.flatten_cons]
    simp only [List.append_assoc]
    rw [lines_append,hstart,List.nil_append,lines_append]
    simp [hline]
  rcases infix_lines_or_rest (show newline ∉ matchCmd by decide) hin with ⟨line,hline,hin⟩ | hin
  · exact h.noSeek line (hsub line hline) hin
  · rw [(hshape p hp).rest_eq] at hin
    exact absurd (List.infix_nil.mp hin) (by decide)

def Alone (c : ℕ) (log : List Event) : Prop := ∀ c', c' ≠ c → chunks c' log = []

theorem step_alone {s s' : Sys} {l : Label} {c : ℕ} (hs : Alone c s.shared.log) (hl : l.1 = .handler c)
    (h : step (move true) s l = .ok s') : Alone c s'.shared.log := by
  obtain ⟨i,a⟩ := l
  obtain rfl : i = .handler c := hl
  obtain ⟨x,sh,hmove,rfl⟩ := step_ok_iff.mp h
  intro c' hc'
  rw [chunks_move hmove (by simpa using hc')]
  exact hs c' hc'

theorem Plain.bounded {log : List Event} {c : ℕ} (h : Plain (received c log)) (halone : Alone c log) :
    Bounded maxRwCount log := by
  intro c'
  by_cases hc : c' = c
  · subst hc
    exact ⟨h.nul,h.short⟩
  · simp [received,halone c' hc]

theorem step_stored {s s' : Sys} {l : Label} {c : ℕ} (hframed : Everywhere FramedAt s)
    (hopened : Everywhere OpenedAt s) (halone : Alone c s.shared.log)
    (hplain : Plain (received c s.shared.log)) (hrec : Recorded s.shared) (hl : l.1 = .handler c)
    (hg : granted s l = true) (h : step (move true) s l = .ok s')
    (hs : stored s.shared.log = (payloads c s.shared.log).map (takeLine newline)) :
    stored s'.shared.log = (payloads c s'.shared.log).map (takeLine newline) := by
  obtain ⟨i,a⟩ := l
  obtain rfl : i = .handler c := hl
  obtain ⟨x,sh,hmove,rfl⟩ := step_ok_iff.mp h
  cases handlerStep_of_move hmove with
  | append hlogs hpc hpayload happend =>
    have hc : FramedAt (.handler c) s.shared (s.conn c) := hframed (.handler c)
    have hfd : 0 ≤ (s.conn c).dataFd := hopened (.handler c) (by simp [hpc])
    have hb := hplain.bounded halone
    have hmem := appending_mem hc hplain.nul hpc hpayload
    obtain ⟨-,hwhen⟩ := append_recorded hb hc hrec hpc hpayload happend
    obtain ⟨hacc,-⟩ := hwhen hfd (hplain.payload hc.2.1 hmem) hg
    have hnl := (appending_payload hb hc hpc hpayload).1
    have hne : takeLine newline _ ≠ [] := List.ne_nil_of_mem ((mem_takeLine_iff newline _).mpr hnl)
    simp [hs,hacc,stored_appended _ _ hne]
  | _ => simpa using hs

theorem visits_stored {ls : List Label} {s : Sys} {c : ℕ} (hclient : ∀ l ∈ ls, l.1 = .handler c)
    (hg : ∀ t l, Takes (move true) boot ls t l → granted t l = true)
    (hs : Visits (move true) boot ls s) (hplain : Plain (received c s.shared.log)) :
    Settled s.shared.data.device
      (((payloads c s.shared.log).map (takeLine newline)).rtake 10) := by
  have hall := hs.invariant (I := fun t => Everywhere FramedAt t ∧ Everywhere OpenedAt t ∧
      Alone c t.shared.log ∧ (Plain (received c t.shared.log) → Recorded t.shared ∧
        stored t.shared.log = (payloads c t.shared.log).map (takeLine newline)))
    (G := fun t l => granted t l = true ∧ l.1 = .handler c)
    ⟨boot_framed,boot_opened,by simp [Alone,boot,chunks],fun _ => ⟨boot_recorded,by simp [boot,stored,payloads]⟩⟩
    (by
      rintro t l t' ⟨hframed,hopened,halone,hstored⟩ ⟨hgl,hl⟩ h
      refine ⟨step_framed hframed h,step_opened hopened hgl h,step_alone halone hl h,fun hp => ?_⟩
      have hbefore : Plain (received c t.shared.log) := by
        obtain ⟨more,hmore⟩ := step_log h
        rw [← hmore,received_append] at hp
        exact hp.of_append
      obtain ⟨hrec,hsame⟩ := hstored hbefore
      exact ⟨step_recorded (hbefore.bounded halone) hframed hrec h,
        step_stored hframed hopened halone hbefore hrec hl hgl h hsame⟩)
    (fun t l h => ⟨hg t l h,by
      obtain ⟨pre,t',hpre,-⟩ := h
      exact hclient l (hpre.subset (by simp))⟩)
  obtain ⟨-,-,-,hstored⟩ := hall
  obtain ⟨hrec,hsame⟩ := hstored hplain
  rw [← hsame]
  exact hrec.settled

/-- A single client whose calls all succeed, back at recv. The device holds the last ten
lines of its stream exactly if each of them has the bytes of the line stored in its
place: so it is when none of the last eleven chunks with a newline has a second one,
and with lines that are all different only then. -/
theorem keeps_last_lines_iff {ls : List Label} {s : Sys} {c : ℕ}
    (hrun : run (move true) boot ls = .ok s) (hclient : ∀ l ∈ ls, l.1 = .handler c)
    (hgranted : ∀ t l, Takes (move true) boot ls t l → granted t l = true)
    (hplain : Plain (received c s.shared.log)) (hdone : (s.conn c).pc = .recv) :
    (contents s.shared.data.device = (lines newline (received c s.shared.log)).rtake 10 ↔
      LinesKept (chunks c s.shared.log)) ∧
    (extraNewlines (chunks c s.shared.log) 11 = 0 → LinesKept (chunks c s.shared.log)) ∧
    ((lines newline (received c s.shared.log)).Nodup → LinesKept (chunks c s.shared.log) →
      extraNewlines (chunks c s.shared.log) 11 = 0) := by
  have hv := Visits.of_run hrun
  obtain ⟨-,hlen,hframed⟩ : FramedAt (.handler c) s.shared (s.conn c) := visits_framed hv (.handler c)
  have hf := hframed hplain.nul
  simp only [Framed,hdone] at hf
  obtain ⟨held,-,hfeeds⟩ := hf
  have hcon := (visits_stored hclient hgranted hv hplain).contents_eq
  refine ⟨?_,linesKept_of_extraNewlines,fun hnodup hkept => extraNewlines_of_linesKept hkept hnodup⟩
  rw [hcon,received,← rtake_feeds_eq_iff hlen,hfeeds]

set_option maxRecDepth 4000

/-- "a\n" and "b\n" in a chunk each. -/
def lineChunksRun : List Label :=
  accepted 0 4 ++ calls 0 (chunkCalls [97,10] 6 [2]) ++ calls 0 (chunkCalls [98,10] 7 [2,2])

def jointLinesRun : List Label := accepted 0 4 ++ calls 0 (chunkCalls [97,10,98,10] 6 [2])

theorem plain_twoLines : Plain [97,10,98,10] where
  nul := by decide
  short := by decide
  noSeek := by
    intro line hline
    apply strstr_eq_none_iff.mp
    revert line
    decide

theorem lineChunksRun_keeps : ∃ s : Sys, run (move true) boot lineChunksRun = .ok s ∧
    received 0 s.shared.log = [97,10,98,10] ∧
    contents s.shared.data.device = (lines newline (received 0 s.shared.log)).rtake 10 := by
  obtain ⟨s,hrun,hend⟩ := exists_of_returns
    (show returns (fun s : Sys => (s.conn 0).pc = .recv ∧ chunks 0 s.shared.log = [[97,10],[98,10]])
      (run (move true) boot lineChunksRun) = true by decide)
  obtain ⟨hpc,hchunks⟩ := of_decide_eq_true hend
  have hpass : stepsPass (move true) granted boot lineChunksRun = true := by decide
  have hreceived : received 0 s.shared.log = [97,10,98,10] := by rw [received,hchunks]; rfl
  have hplain : Plain (received 0 s.shared.log) := by rw [hreceived]; exact plain_twoLines
  obtain ⟨hiff,hkept,-⟩ := keeps_last_lines_iff hrun (by decide) (fun _ _ h => pass_of_takes hpass h) hplain hpc
  refine ⟨s,hrun,hreceived,hiff.mpr (hkept ?_)⟩
  rw [hchunks]
  decide

/-- The second line of a chunk is not handed on, although every call succeeds. -/
theorem jointLinesRun_loses_line : ∃ s : Sys, run (move true) boot jointLinesRun = .ok s ∧
    (∀ t l, Takes (move true) boot jointLinesRun t l → granted t l = true) ∧
    (s.conn 0).pc = .recv ∧ received 0 s.shared.log = [97,10,98,10] ∧
    contents s.shared.data.device = [[97,10]] ∧
    (lines newline (received 0 s.shared.log)).rtake 10 = [[97,10],[98,10]] := by
  obtain ⟨s,hrun,hend⟩ := exists_of_returns
    (show returns (fun s : Sys => (s.conn 0).pc = .recv ∧ received 0 s.shared.log = [97,10,98,10] ∧
        contents s.shared.data.device = [[97,10]])
      (run (move true) boot jointLinesRun) = true by decide)
  obtain ⟨hpc,hreceived,hcon⟩ := of_decide_eq_true hend
  have hpass : stepsPass (move true) granted boot jointLinesRun = true := by decide
  refine ⟨s,hrun,fun _ _ h => pass_of_takes hpass h,hpc,hreceived,hcon,?_⟩
  rw [hreceived]
  decide

end Aesd.Server
