import Aesd.Server.LostUpdate
import Aesd.Server.StreamKept

/-! # The regular file as a merge of streams

Where no append goes behind the back of another one and every write is complete, the
regular file is put together from whole pieces: the lines of each client in the order
in which they were sent, and the rows of the timer. Nothing else is in it, and no piece
is torn apart.
-/
namespace Aesd.Server
open CharDevice Kernel CString Interleaving Lines

/-- The strings handed to append_datafile, each with its thread, in the order of the appends. -/
def pieces (log : List Event) : List (Thread × List UInt8) :=
  log.filterMap (fun | .appended i payload _ => some (i,payload) | _ => none)

def piecesOf (i : Thread) (log : List Event) : List (List UInt8) :=
  ((pieces log).filter (fun p => p.1 = i)).map Prod.snd

theorem pieces_snoc (log : List Event) (e : Event) : pieces (log ++ [e]) = pieces log ++ match e with
    | .appended i payload _ => [(i,payload)]
    | _ => [] := by
  cases e <;> simp [pieces]

@[simp] theorem piecesOf_snoc (i : Thread) (log : List Event) (e : Event) :
    piecesOf i (log ++ [e]) = piecesOf i log ++ match e with
      | .appended j payload _ => if j = i then [payload] else []
      | _ => [] := by
  rw [piecesOf,pieces_snoc]
  cases e with
  | appended j payload accepted => by_cases h : j = i <;> simp [piecesOf,h]
  | _ => simp [piecesOf]

theorem payloads_eq_piecesOf (c : ℕ) (log : List Event) : payloads c log = piecesOf (.handler c) log := by
  induction log using List.reverseRecOn with
  | nil => rfl
  | append_singleton log e ih =>
    rw [payloads_append,piecesOf_snoc,ih]
    congr 1
    cases e with
    | appended j payload accepted => by_cases h : j = .handler c <;> simp [payloads,h]
    | _ => rfl

def tsRowSize : ℕ := 120

/-- "timestamp:", what strftime wrote, and a newline. -/
def IsRow (row : List UInt8) : Prop :=
  ∃ dt, dt.length < dtSize ∧ 0 ∉ dt ∧ row = timestampText ++ dt ++ [newline]

theorem IsRow.fits {row : List UInt8} (h : IsRow row) : row.length + 1 ≤ tsRowSize := by
  obtain ⟨dt,hdt,-,rfl⟩ := h
  simp only [dtSize] at hdt
  simp only [timestampText,List.length_append,List.length_cons,List.length_nil,tsRowSize]
  omega

theorem cstr_tsRow {dt : List UInt8} (hdt : 0 ∉ dt) :
    cstr (timestampText ++ dt ++ [newline,0]) = some (timestampText ++ dt ++ [newline]) := by
  have hrow : timestampText ++ dt ++ [newline,0] = timestampText ++ dt ++ [newline] ++ [0] := by simp
  rw [hrow]
  refine cstr_append_zero ?_ []
  simp only [List.mem_append,not_or]
  exact ⟨⟨by decide,hdt⟩,by decide⟩

/-- A timer thread appends one row at most, and has it ready before. -/
def RowAt : (i : Thread) → Shared → Local i → Prop
  | .handler _ => fun _ _ => True
  | .timer t => fun sh (x : Timer) =>
    (x.pc ∈ [TimerPc.lock,.gettime,.openFile,.seek,.append] → piecesOf (.timer t) sh.log = []) ∧
    (x.pc ∈ [TimerPc.openFile,.seek,.append] → ∃ dt, dt.length < dtSize ∧ 0 ∉ dt ∧
      x.tsRow = timestampText ++ dt ++ [newline,0]) ∧
    (piecesOf (.timer t) sh.log).length ≤ 1 ∧ ∀ row ∈ piecesOf (.timer t) sh.log, IsRow row

theorem piecesOf_move {charDevice : Bool} {i j : Thread} {sh sh' : Shared} {x x' : Local i} {a : Act i}
    (h : move charDevice i sh x a = .ok (x',sh')) (hj : j ≠ i) :
    piecesOf j sh'.log = piecesOf j sh.log := by
  rcases move_log h with hlog | ⟨e,hlog,hthread⟩
  · rw [hlog]
  · rw [hlog,piecesOf_snoc]
    cases e with
    | appended k payload accepted =>
      have hk : k = i := hthread
      simp [hk,hj.symm]
    | _ => simp

theorem TimerStep.row {t : ℕ} {sh sh' : Shared} {x x' : Timer} {k : TimerCall}
    (h : TimerStep false t sh x k x' sh') (hx : RowAt (.timer t) sh x) : RowAt (.timer t) sh' x' := by
  obtain ⟨hnone,hready,hone,hrows⟩ := hx
  cases h with
  | gettime hpc hlen hnul =>
    exact ⟨fun _ => hnone (by simp [hpc]),fun _ => ⟨_,hlen,hnul,rfl⟩,hone,hrows⟩
  | append hpc hpayload happend =>
    obtain ⟨dt,hlen,hnul,hrow⟩ := hready (by simp [hpc])
    rw [hrow,cstr_tsRow hnul] at hpayload
    obtain rfl := Option.some.inj hpayload
    have hbefore := hnone (by simp [hpc])
    refine ⟨by simp,by simp,?_,?_⟩
    · simp [hbefore]
    · intro row hmem
      obtain rfl : row = timestampText ++ dt ++ [newline] := by simpa [hbefore] using hmem
      exact ⟨dt,hlen,hnul,rfl⟩
  | openFailed hpc | openFile hpc | seek hpc | seekFailed hpc | close hpc =>
    exact ⟨by simp_all,by simp_all,by simpa using hone,by simpa using hrows⟩
  | _ => exact ⟨by simp_all,by simp_all,hone,hrows⟩

theorem step_row {s s' : Sys} {l : Label} (hs : Everywhere RowAt s) (h : step (move false) s l = .ok s') :
    Everywhere RowAt s' := by
  obtain ⟨i,a⟩ := l
  obtain ⟨x,sh,hmove,rfl⟩ := step_ok_iff.mp h
  refine hs.update ?_ ?_
  · cases i with
    | handler c => trivial
    | timer t => exact (timerStep_of_move hmove).2.row (hs (.timer t))
  · intro j hj hrow
    cases j with
    | handler c => trivial
    | timer t => simpa only [RowAt,piecesOf_move hmove hj] using hrow

theorem visits_row {ls : List Label} {s : Sys} (h : Visits (move false) boot ls s) : Everywhere RowAt s := by
  refine h.always ?_ (fun _ _ _ hs hstep => step_row hs hstep)
  intro i
  cases i <;> simp [RowAt,boot,piecesOf,pieces]

/-- The file took the whole string, if it is an append. -/
def Event.whole : Event → Bool
  | .appended _ payload accepted => accepted = payload
  | _ => true

theorem appendedBytes_of_whole {log : List Event} (h : ∀ e ∈ log, e.whole = true) :
    appendedBytes log = ((pieces log).map Prod.snd).flatten := by
  induction log using List.reverseRecOn with
  | nil => rfl
  | append_singleton log e ih =>
    rw [appendedBytes_snoc,pieces_snoc,ih (fun e hmem => h e (List.mem_append_left _ hmem))]
    cases e with
    | appended i payload accepted =>
      obtain rfl : accepted = payload := of_decide_eq_true (h (.appended i payload accepted) (by simp))
      simp [Event.added]
    | _ => simp [Event.added]

theorem flatten_isPrefix {ps qs : List (List UInt8)} (h : ps <+: qs) : ps.flatten <+: qs.flatten := by
  obtain ⟨rest,rfl⟩ := h
  rw [List.flatten_append]
  apply List.prefix_append

/-- The pieces of a handler make up the first part of its stream, and with the string
that it holds while it waits for more, all of it. -/
theorem piecesOf_handler {c : ℕ} {sh : Shared} {x : Conn} (hx : FramedAt (.handler c) sh x)
    (hnul : 0 ∉ received c sh.log) :
    (piecesOf (.handler c) sh.log).flatten <+: received c sh.log ∧
    (∀ p ∈ piecesOf (.handler c) sh.log, p.getLast? = some newline) ∧
    (x.pc = .recv → ∃ held, cstr x.buffer = some held ∧
      (piecesOf (.handler c) sh.log).flatten ++ held = received c sh.log) := by
  obtain ⟨-,hlen,hframed⟩ := hx
  have hframed := hframed hnul
  have hsent := hframed.sentOff
  rw [payloads_eq_piecesOf] at hsent hframed
  have hflat := feeds_flatten (chunks c sh.log)
  refine ⟨?_,?_,?_⟩
  · refine (flatten_isPrefix hsent).trans ?_
    rw [received,← hflat]
    apply List.prefix_append
  · intro p hp
    exact ((feeds_shape hlen).1 p (hsent.subset hp)).getLast?
  · intro hpc
    simp only [Framed,hpc] at hframed
    obtain ⟨held,hbuf,hfeeds⟩ := hframed
    exact ⟨held,hbuf,by rw [received,← hflat,hfeeds]⟩

/-- The step adds nothing to the file, or nobody has added anything since the mover's seek. -/
def appendsAtEnd (s : Sys) (l : Label) : Bool :=
  match step (move false) s l with
  | .ok s' => appendedBytes s'.shared.log = appendedBytes s.shared.log ∨ addedSinceSeek l.1 s.shared.log = 0
  | .error _ => true

theorem step_fileIsAppends {s s' : Sys} {l : Label} (hs : Everywhere PositionedAt s)
    (hfile : FileIsAppends s) (hend : appendsAtEnd s l = true) (h : step (move false) s l = .ok s') :
    FileIsAppends s' := by
  refine (step_fileIsAppends_iff hs hfile h).mpr (fun hadds => ?_)
  simp only [appendsAtEnd,h,decide_eq_true_eq] at hend
  exact hend.resolve_left hadds

/-- In a run in which no thread adds bytes after others have been appended since its
seek, with complete writes and streams without NUL bytes: the file is the pieces, one
after the other; those of a client are whole and in the order of its stream; and each
timer thread has added one row at most, which fitted into ts_row. -/
theorem file_merges_streams {ls : List Label} {s : Sys} (h : run (move false) boot ls = .ok s)
    (hend : ∀ t l, Takes (move false) boot ls t l → appendsAtEnd t l = true)
    (hwhole : ∀ e ∈ s.shared.log, e.whole = true) (hnul : ∀ c, 0 ∉ received c s.shared.log) :
    s.shared.data.file = ((pieces s.shared.log).map Prod.snd).flatten ∧
    (∀ c, (piecesOf (.handler c) s.shared.log).flatten <+: received c s.shared.log ∧
      (∀ p ∈ piecesOf (.handler c) s.shared.log, p.getLast? = some newline) ∧
      ((s.conn c).pc = .recv → ∃ held, cstr (s.conn c).buffer = some held ∧
        (piecesOf (.handler c) s.shared.log).flatten ++ held = received c s.shared.log)) ∧
    ∀ t, (piecesOf (.timer t) s.shared.log).length ≤ 1 ∧
      ∀ row ∈ piecesOf (.timer t) s.shared.log, IsRow row ∧ row.length + 1 ≤ tsRowSize := by
  have hvisits := Visits.of_run h
  have hfile := hvisits.invariant (I := fun t => Everywhere PositionedAt t ∧ FileIsAppends t)
    (G := fun t l => appendsAtEnd t l = true) ⟨boot_positioned,boot_fileIsAppends⟩
    (fun t l t' hI hG hstep => ⟨step_positioned hI.1 hI.2 hstep,step_fileIsAppends hI.1 hI.2 hG hstep⟩)
    hend
  refine ⟨?_,fun c => piecesOf_handler (visits_framed hvisits (.handler c)) (hnul c),fun t => ?_⟩
  · exact hfile.2.trans (appendedBytes_of_whole hwhole)
  · obtain ⟨-,-,hone,hrows⟩ : RowAt (.timer t) s.shared (s.timer t) := visits_row hvisits (.timer t)
    exact ⟨hone,fun row hrow => ⟨hrows row hrow,(hrows row hrow).fits⟩⟩

set_option maxRecDepth 4000

def timerCalls (t : ℕ) (ks : List TimerCall) : List Label := ks.map (fun k => ⟨.timer t,k⟩)

/-- Two clients and one expiry of the timer; the first client has begun its next line. -/
def mergedRun : List Label :=
  accepted 0 4 ++ accepted 1 5 ++ calls 0 (chunkCalls [97,10,98] 6 [2]) ++
    timerCalls 0 [.lock 0,.gettime (some [120]),.openFile 7,.seek true,.append grantingAppend,.close,
      .unlock] ++
    calls 1 (chunkCalls [99,10] 8 [16])

theorem mergedRun_merges : ∃ s : Sys, run (move false) boot mergedRun = .ok s ∧
    s.shared.data.file = [97,10] ++ (timestampText ++ [120,10]) ++ [99,10] ∧
    ∃ held, cstr (s.conn 0).buffer = some held ∧ [97,10] ++ held = [97,10,98] := by
  obtain ⟨s,hrun,hlog⟩ := exists_of_returns
    (show returns (fun s : Sys => receipts s.shared.log = [(0,[97,10,98]),(1,[99,10])] ∧
        pieces s.shared.log =
          [(.handler 0,[97,10]),(.timer 0,timestampText ++ [120,10]),(.handler 1,[99,10])] ∧
        (s.conn 0).pc = .recv ∧ ∀ e ∈ s.shared.log, e.whole = true)
      (run (move false) boot mergedRun) = true by decide)
  obtain ⟨hreceipts,hpieces,hpc,hwhole⟩ := of_decide_eq_true hlog
  have hpass : stepsPass (move false) appendsAtEnd boot mergedRun = true := by decide
  have hnul : ∀ c, 0 ∉ received c s.shared.log := by
    intro c
    simp only [received,chunks_eq,hreceipts]
    by_cases h0 : c = 0
    · subst h0
      decide
    · by_cases h1 : c = 1
      · subst h1
        decide
      · simp [Ne.symm h0,Ne.symm h1]
  obtain ⟨hfile,hclients,-⟩ := file_merges_streams hrun (fun _ _ h => pass_of_takes hpass h) hwhole hnul
  obtain ⟨held,hbuf,hheld⟩ := (hclients 0).2.2 hpc
  rw [piecesOf,hpieces,received,chunks_eq,hreceipts] at hheld
  exact ⟨s,hrun,by rw [hfile,hpieces]; rfl,held,hbuf,hheld⟩

end Aesd.Server
