import Aesd.Driver.CircularBuffer
import Mathlib.Tactic.Abel

/-! # The circular buffer refines a bounded FIFO

One call of add_entry keeps the representation invariant and pushes onto the
window of live entries, in the partially filled buffer as well as across every
wrap of a full one. All statements about runs of calls follow from that step.
-/
namespace Aesd.CircularBuffer
open Window

theorem valid_init : Valid aesdCircularBufferInit where
  inLt := by decide
  outLt := by decide
  fullEq := by decide
  partialOut := by decide
  partialZero := fun _ j _ => slot_init j
  sizeEq := by decide

theorem live_init : live aesdCircularBufferInit = [] := by decide

theorem length_live_full {b : AesdCircularBuffer} (hv : Valid b) (hf : b.full = true) :
    (live b).length = 10 := by simp [live_full hv hf]

theorem length_live_of_notFull {b : AesdCircularBuffer} (hv : Valid b) (hf : b.full = false) :
    (live b).length = b.inOffs.toNat := by simp [live_of_notFull hv hf]

theorem length_live_le {b : AesdCircularBuffer} (hv : Valid b) : (live b).length ≤ 10 := by
  have hi := hv.inLt
  cases hf : b.full with
  | true => exact (length_live_full hv hf).le
  | false =>
    rw [length_live_of_notFull hv hf]
    omega

theorem full_iff {b : AesdCircularBuffer} (hv : Valid b) : b.full = true ↔ 10 ≤ (live b).length := by
  cases hf : b.full with
  | false =>
    have hl := length_live_of_notFull hv hf
    have hi := hv.inLt
    simp only [Bool.false_eq_true,false_iff]
    omega
  | true => simp [length_live_full hv hf]

theorem live_cons_full {b : AesdCircularBuffer} (hv : Valid b) (hf : b.full = true) :
    live b = slot b b.inOffs.toNat ::
      (List.range 9).map (fun j => slot b ((b.inOffs.toNat + 1 + j) % 10)) := by
  have hi := hv.inLt
  rw [live_full hv hf,List.range_succ_eq_map,List.map_cons,Nat.add_zero,Nat.mod_eq_of_lt hi,
    List.map_map]
  refine congrArg _ (List.map_congr_left ?_)
  intro j _
  rw [Function.comp_apply,show b.inOffs.toNat + j.succ = b.inOffs.toNat + 1 + j by omega]

theorem addEntry_of_notFull {b : AesdCircularBuffer} (hv : Valid b) (hf : b.full = false)
    (e : AesdBufferEntry) :
    let b' := (aesdCircularBufferAddEntry b e).2
    b'.inOffs.toNat = (b.inOffs.toNat + 1) % 10 ∧ b'.outOffs = 0 ∧
      (b'.full = true ↔ b.inOffs.toNat = 9) := by
  have hi := hv.inLt
  refine ⟨cbPointerInc_toNat _,?_,?_⟩
  · simp [aesdCircularBufferAddEntry,hf,hv.partialOut hf]
  · simp only [aesdCircularBufferAddEntry,hf,hv.partialOut hf,beq_iff_eq,Bool.false_eq_true,if_false]
    rw [← UInt8.toNat_inj,cbPointerInc_toNat]
    simp only [UInt8.toNat_zero]
    omega

theorem addEntry_full {b : AesdCircularBuffer} (hv : Valid b) (hf : b.full = true)
    (e : AesdBufferEntry) :
    let b' := (aesdCircularBufferAddEntry b e).2
    b'.inOffs.toNat = (b.inOffs.toNat + 1) % 10 ∧ b'.outOffs = b'.inOffs ∧ b'.full = true := by
  refine ⟨cbPointerInc_toNat _,?_,?_⟩
  · simp [aesdCircularBufferAddEntry,hf,hv.fullEq hf]
  · simp [aesdCircularBufferAddEntry,hf,hv.fullEq hf]

theorem live_addEntry {b : AesdCircularBuffer} (hv : Valid b) (e : AesdBufferEntry) :
    live (aesdCircularBufferAddEntry b e).2 = push 10 (live b) e := by
  have hi := hv.inLt
  cases hf : b.full with
  | false =>
    obtain ⟨hin,hout,hfull⟩ := addEntry_of_notFull hv hf e
    have hup : (cbLoopUpperBoundary (aesdCircularBufferAddEntry b e).2).toNat = b.inOffs.toNat + 1 := by
      unfold cbLoopUpperBoundary
      split
      case isTrue h =>
        have h9 := hfull.mp h
        simp only [UInt8.toNat_add,UInt8.toNat_ofNat',hin,maxWriteOperationsSupported]
        omega
      case isFalse h =>
        have h9 : b.inOffs.toNat ≠ 9 := fun hh => h (hfull.mpr hh)
        rw [hin]
        omega
    rw [live,hup,hout,live_of_notFull hv hf,push_of_lt (by simpa using hi)]
    simp only [UInt8.toNat_zero,Nat.zero_add,Nat.sub_zero,List.range_succ,List.map_append,
      List.map_cons,List.map_nil,cbPointerCast]
    rw [Nat.mod_eq_of_lt hi,slot_addEntry hi,if_pos rfl]
    congr 1
    apply List.map_congr_left
    intro j hj
    have hj' : j < b.inOffs.toNat := by simpa using hj
    rw [Nat.mod_eq_of_lt (show j < 10 by omega),slot_addEntry hi,if_neg (by omega)]
  | true =>
    obtain ⟨hin,hout,hfull⟩ := addEntry_full hv hf e
    have hup : (cbLoopUpperBoundary (aesdCircularBufferAddEntry b e).2).toNat =
        (b.inOffs.toNat + 1) % 10 + 10 := by
      simp only [cbLoopUpperBoundary,hfull,if_true,UInt8.toNat_add,UInt8.toNat_ofNat',hin,
        maxWriteOperationsSupported]
      omega
    have hspan : (b.inOffs.toNat + 1) % 10 + 10 - (b.inOffs.toNat + 1) % 10 = 9 + 1 := by omega
    rw [live,hup,hout,hin,hspan,live_cons_full hv hf,push_full (by simp),List.range_succ,
      List.map_append]
    congr 1
    · apply List.map_congr_left
      intro j hj
      have hj' : j < 9 := by simpa using hj
      have hind : cbPointerCast ((b.inOffs.toNat + 1) % 10 + j) = (b.inOffs.toNat + 1 + j) % 10 := by
        simp only [cbPointerCast,maxWriteOperationsSupported]
        omega
      rw [hind,slot_addEntry hi,if_neg (by omega)]
    · have hind : cbPointerCast ((b.inOffs.toNat + 1) % 10 + 9) = b.inOffs.toNat := by
        simp only [cbPointerCast,maxWriteOperationsSupported]
        omega
      rw [List.map_singleton,hind,slot_addEntry hi,if_pos rfl]

/-- The running size follows the window: the wrapped difference is the new size
minus that of the entry which the push drops. -/
theorem size_addEntry {b : AesdCircularBuffer} (hv : Valid b) (e : AesdBufferEntry) :
    (aesdCircularBufferAddEntry b e).2.size =
      ((push 10 (live b) e).map AesdBufferEntry.size).sum := by
  have hi := hv.inLt
  cases hf : b.full with
  | false =>
    have hl := length_live_of_notFull hv hf
    rw [push_of_lt (by omega)]
    simp only [aesdCircularBufferAddEntry,hv.partialZero hf _ le_rfl,zeroEntry,hv.sizeEq,
      List.map_append,List.map_cons,List.map_nil,List.sum_append,List.sum_cons,List.sum_nil]
    simp
  | true =>
    have hlive := live_cons_full hv hf
    rw [hlive,push_full (by simp)]
    simp only [aesdCircularBufferAddEntry,hv.sizeEq,hlive,List.map_append,List.map_cons,List.map_nil,
      List.sum_append,List.sum_cons,List.sum_nil]
    abel

theorem valid_addEntry {b : AesdCircularBuffer} (hv : Valid b) (e : AesdBufferEntry) :
    Valid (aesdCircularBufferAddEntry b e).2 := by
  have hi := hv.inLt
  have hsize := size_addEntry hv e
  rw [← live_addEntry hv e] at hsize
  cases hf : b.full with
  | false =>
    obtain ⟨hin,hout,hfull⟩ := addEntry_of_notFull hv hf e
    refine ⟨by omega,by simp [hout],?_,fun _ => hout,?_,hsize⟩
    · intro h
      have h9 := hfull.mp h
      rw [← UInt8.toNat_inj,hin,hout]
      simp [h9]
    · intro h j hj
      have h9 : b.inOffs.toNat ≠ 9 := fun hh => by simp [hfull.mpr hh] at h
      rw [slot_addEntry hi,if_neg (by omega)]
      exact hv.partialZero hf j (by omega)
  | true =>
    obtain ⟨hin,hout,hfull⟩ := addEntry_full hv hf e
    refine ⟨by omega,by rw [hout]; omega,fun _ => hout.symm,?_,?_,hsize⟩
    · intro h
      simp [hfull] at h
    · intro h
      simp [hfull] at h

theorem addEntry_oldBuf {b : AesdCircularBuffer} (hv : Valid b) (e : AesdBufferEntry) :
    (aesdCircularBufferAddEntry b e).1 =
      if 10 ≤ (live b).length then (((live b).head?).getD zeroEntry).buffptr else .null := by
  have hfull := full_iff hv
  cases hf : b.full with
  | false =>
    rw [if_neg (fun h => by simp [hfull.mpr h] at hf)]
    simp [aesdCircularBufferAddEntry,hf]
  | true =>
    rw [if_pos (hfull.mp hf),live_cons_full hv hf]
    simp [aesdCircularBufferAddEntry,hf]

def addEntries (b : AesdCircularBuffer) (es : List AesdBufferEntry) : AesdCircularBuffer :=
  es.foldl (fun b e => (aesdCircularBufferAddEntry b e).2) b

theorem addEntries_spec {b : AesdCircularBuffer} (hv : Valid b) (es : List AesdBufferEntry) :
    Valid (addEntries b es) ∧ live (addEntries b es) = es.foldl (push 10) (live b) := by
  induction es generalizing b with
  | nil => exact ⟨hv,rfl⟩
  | cons e es ih =>
    have h := ih (valid_addEntry hv e)
    rwa [live_addEntry hv e] at h

/-- From the initial buffer on, the live entries are the window of the added ones. -/
theorem live_addEntries (es : List AesdBufferEntry) :
    Valid (addEntries aesdCircularBufferInit es) ∧
      live (addEntries aesdCircularBufferInit es) = es.rtake 10 := by
  obtain ⟨hv,hl⟩ := addEntries_spec valid_init es
  refine ⟨hv,?_⟩
  rw [hl,live_init]
  exact foldl_push 10 [] es

theorem toNat_sum_size {es : List AesdBufferEntry}
    (h : (es.map (fun e => e.size.toNat)).sum < 2^64) :
    ((es.map AesdBufferEntry.size).sum).toNat = (es.map (fun e => e.size.toNat)).sum := by
  induction es with
  | nil => rfl
  | cons e es ih =>
    simp only [List.map_cons,List.sum_cons] at h ⊢
    rw [UInt64.toNat_add,ih (by omega)]
    omega

def wrapped (b : AesdCircularBuffer) (n : ℕ) : List AesdBufferEntry :=
  (List.range n).map (fun j => slot b ((b.outOffs.toNat + j) % 10))

theorem wrapped_length_live (b : AesdCircularBuffer) :
    wrapped b (live b).length = live b := by
  simp [wrapped,live,cbPointerCast]

/-- Every sequence of calls leaves the buffer as a FIFO of capacity ten: offsets in
range, the flag set from the tenth entry on, unused slots zeroed, the newest ten
entries in order, their sizes summed up, and the next call drops the oldest one. -/
theorem addEntries_refines_fifo (es : List AesdBufferEntry) :
    let b := addEntries aesdCircularBufferInit es
    b.inOffs.toNat < 10 ∧ b.outOffs.toNat < 10 ∧
    (b.full = true ↔ 10 ≤ es.length) ∧
    (b.full = false → b.outOffs = 0 ∧ ∀ j, b.inOffs.toNat ≤ j → j < 10 → slot b j = zeroEntry) ∧
    wrapped b (min 10 es.length) = es.rtake 10 ∧
    (((es.rtake 10).map (fun e => e.size.toNat)).sum < 2^64 →
      b.size.toNat = ((es.rtake 10).map (fun e => e.size.toNat)).sum) ∧
    ∀ e, (aesdCircularBufferAddEntry b e).1 =
      if es.length < 10 then .null else (((es.rtake 10).head?).getD zeroEntry).buffptr := by
  intro b
  obtain ⟨hv,hl⟩ := live_addEntries es
  have hlen : (live b).length = min 10 es.length := by rw [hl,length_rtake]
  refine ⟨hv.inLt,hv.outLt,?_,?_,?_,?_,?_⟩
  · rw [full_iff hv,hlen]
    omega
  · intro hf
    exact ⟨hv.partialOut hf,fun j hj _ => hv.partialZero hf j hj⟩
  · rw [← hl,← hlen]
    exact wrapped_length_live b
  · intro hsum
    rw [hv.sizeEq,hl]
    exact toNat_sum_size hsum
  · intro e
    rw [addEntry_oldBuf hv e,hlen,hl]
    by_cases h : es.length < 10
    · rw [if_pos h,if_neg (by omega)]
    · rw [if_neg h,if_pos (by omega)]

end Aesd.CircularBuffer
