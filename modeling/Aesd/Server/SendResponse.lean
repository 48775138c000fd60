import Aesd.Foundation.PartialTransfer
import Aesd.Server.Response

/-! # What send_response delivers

Every buffer that is read is handed to send once, and the next one is read whatever send
took of it. So the client gets the whole file only from sends that take all they are
given, and what an unfinished response has delivered is a part of the file with gaps.
-/
namespace Aesd.Server
open CharDevice Kernel CString Interleaving PartialTransfer

/-- One turn of the loop of send_response: what read delivers, and what send returns for it. -/
abbrev Turn := List UInt8 × ℤ

/-- The loop of send_response for the turns that reading to the end of the file would
take: the return value, and the bytes that the socket accepted. -/
def sendResponse : List Turn → ℤ × List UInt8
  | [] => (0,[])
  | (readbuf,rc) :: turns =>
    if rc < 0 then (rc,[])
    else
      let (ret,accepted) := sendResponse turns
      (ret,readbuf.take rc.toNat ++ accepted)

def fileData (turns : List Turn) : List UInt8 := turns.flatMap Prod.fst

/-- A read delivers up to a buffer, and a send fails or takes some of it. -/
structure Allowed (t : Turn) : Prop where
  nonempty : t.1 ≠ []
  bounded : t.1.length ≤ readbufSize
  result : t.2 < 0 ∨ (1 ≤ t.2 ∧ t.2 ≤ t.1.length)

/-- The turns before the first failing send, with what was taken in them. -/
def served (turns : List Turn) : List (List UInt8 × ℕ) :=
  (turns.takeWhile (fun t => 0 ≤ t.2)).map (fun t => (t.1,t.2.toNat))

theorem served_cons_of_neg {t : Turn} (h : t.2 < 0) (turns : List Turn) : served (t :: turns) = [] := by
  simp [served,not_le.mpr h]

theorem served_cons {t : Turn} (h : 0 ≤ t.2) (turns : List Turn) :
    served (t :: turns) = (t.1,t.2.toNat) :: served turns := by
  simp [served,h]

theorem sendResponse_accepted (turns : List Turn) : (sendResponse turns).2 = taken (served turns) := by
  induction turns with
  | nil => rfl
  | cons t turns ih =>
    by_cases h : t.2 < 0
    · rw [sendResponse,if_pos h,served_cons_of_neg h]
      rfl
    · rw [sendResponse,if_neg h,served_cons (not_lt.mp h),taken_cons]
      exact congrArg (t.1.take t.2.toNat ++ ·) ih

theorem sendResponse_neg_iff (turns : List Turn) :
    (sendResponse turns).1 < 0 ↔ ∃ t ∈ turns, t.2 < 0 := by
  induction turns with
  | nil => simp [sendResponse]
  | cons t turns ih =>
    by_cases h : t.2 < 0
    · simp [sendResponse,h]
    · rw [sendResponse,if_neg h,List.exists_mem_cons_iff,← ih]
      simp [h]

theorem sendResponse_eq_zero_iff (turns : List Turn) :
    (sendResponse turns).1 = 0 ↔ ∀ t ∈ turns, 0 ≤ t.2 := by
  induction turns with
  | nil => simp [sendResponse]
  | cons t turns ih =>
    by_cases h : t.2 < 0
    · rw [sendResponse,if_pos h,List.forall_mem_cons]
      exact ⟨fun hzero => absurd hzero h.ne,fun hall => absurd hall.1 (not_le.mpr h)⟩
    · rw [sendResponse,if_neg h,List.forall_mem_cons,← ih]
      simp [not_lt.mp h]

theorem offered_served_isPrefix (turns : List Turn) : offered (served turns) <+: fileData turns := by
  induction turns with
  | nil => exact List.prefix_rfl
  | cons t turns ih =>
    by_cases h : t.2 < 0
    · rw [served_cons_of_neg h]
      exact List.nil_prefix
    · rw [served_cons (not_lt.mp h),offered_cons]
      exact (List.prefix_append_right_inj t.1).mpr ih

theorem offered_served {turns : List Turn} (h : ∀ t ∈ turns, 0 ≤ t.2) :
    offered (served turns) = fileData turns := by
  have hall : turns.takeWhile (fun t => 0 ≤ t.2) = turns := by
    rw [List.takeWhile_eq_self_iff]
    simpa using h
  rw [served,hall,offered,List.flatMap_map]
  rfl

theorem served_fits {turns : List Turn} (h : ∀ t ∈ turns, Allowed t) :
    ∀ p ∈ served turns, p.2 ≤ p.1.length := by
  intro p hp
  obtain ⟨t,ht,rfl⟩ := List.mem_map.mp hp
  have hresult := (h t ((List.takeWhile_sublist _).subset ht)).result
  dsimp only
  omega

/-- A response that ends well is the file, and an unfinished one the front of it. -/
def Delivers (turns : List Turn) : Prop :=
  ((sendResponse turns).1 = 0 → (sendResponse turns).2 = fileData turns) ∧
    ((sendResponse turns).1 < 0 → (sendResponse turns).2 <+: fileData turns)

/-- Without a failing send every send has to take its whole buffer; before a failing one
each byte taken has to equal the byte of the file that stands before it by the bytes
left out so far. -/
theorem sendResponse_delivers_iff {turns : List Turn} (hallowed : ∀ t ∈ turns, Allowed t) :
    Delivers turns ↔
      ((∀ t ∈ turns, 0 ≤ t.2) → ∀ t ∈ turns, t.2 = t.1.length) ∧
        ((∃ t ∈ turns, t.2 < 0) → Shifted (fileData turns) (served turns)) := by
  rw [Delivers,sendResponse_eq_zero_iff,sendResponse_neg_iff,sendResponse_accepted]
  refine and_congr (imp_congr_right fun hgood => ?_) (imp_congr_right fun _ => ?_)
  · rw [← offered_served hgood,taken_eq_offered_iff]
    have hall : turns.takeWhile (fun t => 0 ≤ t.2) = turns := by
      rw [List.takeWhile_eq_self_iff]
      simpa using hgood
    rw [served,hall,List.forall_mem_map]
    refine forall₂_congr fun t ht => ?_
    have hresult := (hallowed t ht).result
    have hnonneg := hgood t ht
    dsimp only
    omega
  · exact taken_isPrefix_iff (served_fits hallowed) (offered_served_isPrefix turns)

/-- A failing send after one that took everything. -/
theorem fullThenFailed_delivers :
    (∀ t ∈ [([97,98],2),([99],-1)], Allowed t) ∧ Delivers [([97,98],2),([99],-1)] := by
  have hallowed : ∀ t ∈ [([97,98],2),([99],-1)], Allowed t := by
    simp only [List.forall_mem_cons]
    refine ⟨⟨by decide,by decide,by decide⟩,⟨by decide,by decide,by decide⟩,by simp⟩
  refine ⟨hallowed,(sendResponse_delivers_iff hallowed).mpr ⟨by decide,fun _ => ?_⟩⟩
  apply shifted_of_whole
  decide

/-- send takes one byte of "abc", and the function returns 0. -/
theorem partialSend_returns_zero : Allowed ([97,98,99],1) ∧
    sendResponse [([97,98,99],1)] = (0,[97]) ∧ ¬ Delivers [([97,98,99],1)] := by
  refine ⟨⟨by decide,by decide,by decide⟩,by decide,?_⟩
  rintro ⟨hzero,-⟩
  exact absurd (hzero (by decide)) (by decide)

/-! ## The loop in the handler -/

theorem sendResponse_snoc_of_neg {turns : List Turn} (h : ∀ t ∈ turns, 0 ≤ t.2) (readbuf : List UInt8)
    {rc : ℤ} (hrc : rc < 0) : sendResponse (turns ++ [(readbuf,rc)]) = (rc,(sendResponse turns).2) := by
  induction turns with
  | nil => simp [sendResponse,hrc]
  | cons t turns ih =>
    obtain ⟨ht,hrest⟩ := List.forall_mem_cons.mp h
    simp [sendResponse,not_lt.mpr ht,ih hrest]

theorem sendResponse_snoc {turns : List Turn} (h : ∀ t ∈ turns, 0 ≤ t.2) (readbuf : List UInt8)
    {rc : ℤ} (hrc : 0 ≤ rc) :
    sendResponse (turns ++ [(readbuf,rc)]) = (0,(sendResponse turns).2 ++ readbuf.take rc.toNat) := by
  induction turns with
  | nil => simp [sendResponse,not_lt.mpr hrc]
  | cons t turns ih =>
    obtain ⟨ht,hrest⟩ := List.forall_mem_cons.mp h
    simp [sendResponse,not_lt.mpr ht,ih hrest]

/-- The turn that a move ends. -/
def Conn.turn (x : Conn) : Move → List Turn
  | .call (.send rc) => [(x.readbuf,rc)]
  | _ => []

/-- The turn that a step ends for the handler c. -/
def stepTurn (c : ℕ) (s : Sys) : Label → List Turn
  | ⟨.handler c',m⟩ => if c' = c then (s.conn c').turn m else []
  | ⟨.timer _,_⟩ => []

/-- The turns of the handler c in a run. -/
def turns (charDevice : Bool) (c : ℕ) : Sys → List Label → List Turn
  | _, [] => []
  | s, l :: ls =>
    stepTurn c s l ++ match step (move charDevice) s l with
      | .ok t => turns charDevice c t ls
      | .error _ => []

theorem turns_snoc {charDevice : Bool} {c : ℕ} {s t : Sys} {ls : List Label}
    (h : run (move charDevice) s ls = .ok t) (l : Label) :
    turns charDevice c s (ls ++ [l]) = turns charDevice c s ls ++ stepTurn c t l := by
  induction ls generalizing s with
  | nil =>
    obtain rfl := run_nil.mp h
    cases hl : step (move charDevice) s l <;> simp [turns,hl]
  | cons k ls ih =>
    obtain ⟨s₁,hk,hrest⟩ := Interleaving.run_cons.mp h
    simp only [List.cons_append,turns,hk,ih hrest,List.append_assoc]

/-- The move is one in the loop of send_response. -/
def Conn.inLoop (x : Conn) : Move → Bool
  | .cancel => false
  | _ => x.pc ∈ [.read,.send]

def inLoop (c : ℕ) (s : Sys) : Label → Bool
  | ⟨.handler c',m⟩ => c' ≠ c ∨ (s.conn c').inLoop m = true
  | ⟨.timer _,_⟩ => true

/-- Where a handler is after some turns, and what it has sent in them. -/
def Looping (c : ℕ) (before : List UInt8) (ts : List Turn) (sh : Shared) (x : Conn) : Prop :=
  sent c sh.log = before ++ (sendResponse ts).2 ∧
    match x.pc with
    | .read | .send => ∀ t ∈ ts, 0 ≤ t.2
    | .unlock | .closeClient => (sendResponse ts).1 = x.rc
    | _ => False

theorem HandlerStep.looping {charDevice : Bool} {c : ℕ} {sh sh' : Shared} {x x' : Conn} {m : Move}
    {before : List UInt8} {ts : List Turn} (h : HandlerStep charDevice c sh x m x' sh')
    (hin : x.inLoop m = true) (hx : Looping c before ts sh x) :
    Looping c before (ts ++ x.turn m) sh' x' := by
  obtain ⟨hsent,hx⟩ := hx
  cases h with
  | cancelInCleanup | cancel => simp [Conn.inLoop] at hin
  | syslog | requestCancel => exact ⟨by simpa [Conn.turn] using hsent,by simpa [Conn.turn] using hx⟩
  | read hlogs hpc =>
    simp only [hpc] at hx
    exact ⟨by simpa [Conn.turn] using hsent,by simpa [Conn.turn] using hx⟩
  | readEnd hlogs hpc =>
    simp only [hpc] at hx
    refine ⟨by simpa [Conn.turn] using hsent,?_⟩
    simpa [Conn.turn,sendResponse_eq_zero_iff] using hx
  | sendFailed hlogs hpc hrc =>
    simp only [hpc] at hx
    have hfailed := sendResponse_snoc_of_neg hx x.readbuf hrc
    exact ⟨by simpa [Conn.turn,hfailed] using hsent,by simp [Conn.turn,hfailed]⟩
  | send hlogs hpc hrc hle =>
    simp only [hpc] at hx
    have htaken := sendResponse_snoc hx x.readbuf hrc
    refine ⟨by simp [Conn.turn,htaken,hsent],?_⟩
    simp only [Conn.turn,List.mem_append,List.mem_singleton]
    rintro t (ht | rfl)
    · exact hx t ht
    · exact hrc
  | _ => simp_all [Conn.inLoop]

theorem step_looping {charDevice : Bool} {s s' : Sys} {l : Label} {c : ℕ} {before : List UInt8}
    {ts : List Turn} (hin : inLoop c s l = true) (h : step (move charDevice) s l = .ok s')
    (hs : Looping c before ts s.shared (s.conn c)) :
    Looping c before (ts ++ stepTurn c s l) s'.shared (s'.conn c) := by
  obtain ⟨i,a⟩ := l
  obtain ⟨x,sh,hmove,rfl⟩ := step_ok_iff.mp h
  by_cases hi : .handler c = i
  · subst hi
    have hown : (s.conn c).inLoop a = true := by simpa [inLoop] using hin
    simpa [Sys.conn,stepTurn] using (handlerStep_of_move hmove).looping hown hs
  · have hnone : stepTurn c s ⟨i,a⟩ = [] := by
      cases i with
      | handler c' => exact if_neg (fun hc => hi (by rw [hc]))
      | timer t => rfl
    simpa [Looping,Sys.conn,hi,hnone,sent_move hmove hi] using hs

/-- The loop of a handler computes send_response: what it sends is what the turns give,
and the value it goes on with is the one they return. -/
theorem run_sendResponse {charDevice : Bool} {s s' : Sys} {ls : List Label} {c : ℕ}
    (hread : (s.conn c).pc = .read) (hrun : run (move charDevice) s ls = .ok s')
    (hloop : ∀ t l, Takes (move charDevice) s ls t l → inLoop c t l = true) :
    sent c s'.shared.log = sent c s.shared.log ++ (sendResponse (turns charDevice c s ls)).2 ∧
      ((s'.conn c).pc = .unlock ∨ (s'.conn c).pc = .closeClient →
        (sendResponse (turns charDevice c s ls)).1 = (s'.conn c).rc) := by
  have hall : Looping c (sent c s.shared.log) (turns charDevice c s ls) s'.shared (s'.conn c) := by
    induction ls using List.reverseRecOn generalizing s' with
    | nil =>
      obtain rfl := run_nil.mp hrun
      exact ⟨by simp [turns,sendResponse],by simp [hread,turns]⟩
    | append_singleton ls l ih =>
      obtain ⟨t,hrun₀,hlast⟩ := run_snoc.mp hrun
      have hbefore := ih hrun₀ (fun u k hk => hloop u k (hk.extend (List.prefix_append _ _)))
      rw [turns_snoc hrun₀]
      exact step_looping (hloop t l ⟨ls,s',List.prefix_rfl,hrun₀,hlast⟩) hlast hbefore
  obtain ⟨hsent,hend⟩ := hall
  refine ⟨hsent,?_⟩
  rintro (hpc | hpc)
  · simpa only [hpc] using hend
  · simpa only [hpc] using hend

end Aesd.Server
