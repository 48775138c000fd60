import Aesd.Driver.ReadSpec

/-! # Positions, entries and the jump between them

The lookup and the jump translate between a position in the concatenation of the live
entries and an entry with an offset. The lookup reduces its index inside of the loop and
is exact in every state of the buffer. The jump compares an index that it does not
reduce with one that it has reduced: from the wrap of the array on it never meets the
entry and adds up all of them.
-/
namespace Aesd.CircularBuffer
open Positions Window

def sizes (b : AesdCircularBuffer) : List ℕ := (live b).map (fun e => e.size.toNat)

def entryIndex (b : AesdCircularBuffer) (k : ℕ) : ℕ := cbPointerCast (b.outOffs.toNat + k)

@[simp] theorem length_sizes (b : AesdCircularBuffer) : (sizes b).length = (live b).length := by
  simp [sizes]

theorem upperBoundary_eq {b : AesdCircularBuffer} (hv : Valid b) :
    (cbLoopUpperBoundary b).toNat = b.inOffs.toNat + (if b.full then 10 else 0) ∧
      (cbLoopUpperBoundary b).toNat = b.outOffs.toNat + (live b).length := by
  have hi := hv.inLt
  have hup : (cbLoopUpperBoundary b).toNat = b.inOffs.toNat + (if b.full then 10 else 0) := by
    unfold cbLoopUpperBoundary
    split
    · simp only [UInt8.toNat_add,UInt8.toNat_ofNat',maxWriteOperationsSupported]
      omega
    · rfl
  refine ⟨hup,?_⟩
  rw [hup]
  cases hf : b.full with
  | true =>
    rw [length_live_full hv hf,hv.fullEq hf]
    rfl
  | false =>
    rw [length_live_of_notFull hv hf,hv.partialOut hf]
    simp

theorem entryIndex_inj {b : AesdCircularBuffer} {j k : ℕ} (hj : j < 10) (hk : k < 10)
    (h : entryIndex b j = entryIndex b k) : j = k := by
  simp only [entryIndex,cbPointerCast,maxWriteOperationsSupported] at h
  omega

theorem getD_sizes {b : AesdCircularBuffer} {k : ℕ} (hk : k < (live b).length) :
    (sizes b).getD k 0 = (slot b (entryIndex b k)).size.toNat := by
  rw [entryIndex,slot_live hk,List.getD_eq_getElem?_getD,List.getElem?_eq_getElem (by simpa using hk)]
  simp [sizes]

theorem find_eq_some_iff {b : AesdCircularBuffer} (hv : Valid b) {p k o : ℕ} (hk : k < (live b).length) :
    aesdCircularBufferFindEntryOffsetForFpos b p = some (entryIndex b k,o) ↔
      o < (slot b (entryIndex b k)).size.toNat ∧ p = ((sizes b).take k).sum + o := by
  have hten := length_live_le hv
  have hloc : aesdCircularBufferFindEntryOffsetForFpos b p = some (entryIndex b k,o) ↔
      locate (sizes b) p = some (k,o) := by
    rw [find_eq_locate hv,Option.map_eq_some_iff]
    constructor
    · rintro ⟨⟨j,o'⟩,hq,heq⟩
      obtain ⟨hj,-,-⟩ := locate_spec hq
      have hj' : j < (live b).length := by simpa using hj
      obtain ⟨hind,ho⟩ := Prod.mk.inj heq
      obtain rfl : j = k := entryIndex_inj (by omega) (by omega) hind
      obtain rfl : o' = o := ho
      exact hq
    · intro hq
      exact ⟨(k,o),hq,rfl⟩
  rw [hloc,locate_eq_some_iff,getD_sizes hk,length_sizes]
  exact and_iff_right hk

/-- Whatever was added, every position below the total size lies in exactly one live
entry, which the lookup returns with the offset into it; from the total size on it
returns NULL. The boundary of its loop and the counter stay below twenty. -/
theorem find_is_indexing (es : List AesdBufferEntry) (charOffset : ℕ) :
    let b := addEntries aesdCircularBufferInit es
    let entries := es.rtake 10
    let before := fun k => ((entries.take k).map (fun e => e.size.toNat)).sum
    (charOffset < before entries.length →
      ∃! k, k < entries.length ∧ before k ≤ charOffset ∧ charOffset < before (k+1)) ∧
    (∀ k (hk : k < entries.length), before k ≤ charOffset → charOffset < before (k+1) →
      slot b (entryIndex b k) = entries[k] ∧
      aesdCircularBufferFindEntryOffsetForFpos b charOffset =
        some (entryIndex b k,charOffset - before k)) ∧
    (aesdCircularBufferFindEntryOffsetForFpos b charOffset = none ↔ before entries.length ≤ charOffset) ∧
    (cbLoopUpperBoundary b).toNat = b.inOffs.toNat + (if b.full then 10 else 0) ∧
    (cbLoopUpperBoundary b).toNat = b.outOffs.toNat + entries.length ∧
    (cbLoopUpperBoundary b).toNat < 20 ∧
    ∀ j ≤ entries.length, (b.outOffs + UInt8.ofNat j).toNat = b.outOffs.toNat + j := by
  intro b entries before
  obtain ⟨hv,hlive⟩ : Valid b ∧ live b = entries := live_addEntries es
  have hbefore : ∀ k, before k = ((sizes b).take k).sum := by
    intro k
    simp only [before,sizes,hlive,List.map_take]
  have htotal : before entries.length = (sizes b).sum := by
    rw [hbefore,← hlive,← length_sizes,List.take_length]
  have hsucc : ∀ k < entries.length, before (k+1) = before k + (slot b (entryIndex b k)).size.toNat := by
    intro k hk
    rw [← hlive] at hk
    rw [hbefore,hbefore,sum_take_succ (by simpa using hk),getD_sizes hk]
  have hup := upperBoundary_eq hv
  refine ⟨?_,?_,?_,hup.1,hlive ▸ hup.2,upperBoundary_lt hv,?_⟩
  · intro hlt
    have hunique := @existsUnique_piece (sizes b) charOffset (by rwa [← htotal])
    simpa only [hbefore,length_sizes,hlive] using hunique
  · intro k hk hle hlt
    have hk' : k < (live b).length := hlive ▸ hk
    have hnext := hsucc k hk
    refine ⟨?_,?_⟩
    · rw [entryIndex,slot_live hk']
      simp only [hlive]
    · apply (find_eq_some_iff hv hk').mpr
      rw [← hbefore]
      omega
  · rw [find_eq_locate hv,Option.map_eq_none_iff,htotal]
    apply locate_eq_none_iff
  · intro j hj
    have ho := hv.outLt
    have hten := hlive ▸ length_live_le hv
    rw [UInt8.toNat_add,UInt8.toNat_ofNat']
    omega

/-! ## The jump -/

theorem jmpLoop_add (b : AesdCircularBuffer) (ind : UInt8) (m n : ℕ) (i : UInt8) (pos : ℕ)
    (hi : i.toNat + m < 256) (hne : ∀ j < m, i.toNat + j ≠ ind.toNat)
    (hfit : pos + ((List.range m).map (fun j => (slot b (cbPointerCast (i.toNat + j))).size.toNat)).sum
      < 2^63) :
    jmpLoop b ind (m + n) i pos = jmpLoop b ind n (UInt8.ofNat (i.toNat + m))
      (pos + ((List.range m).map (fun j => (slot b (cbPointerCast (i.toNat + j))).size.toNat)).sum : ℕ) := by
  induction m generalizing i pos with
  | zero => simp
  | succ m ih =>
    have hnext : (i+1).toNat = i.toNat + 1 := by
      rw [UInt8.toNat_add]
      change (i.toNat + 1) % 2^8 = _
      omega
    have hshift : ∀ j, i.toNat + 1 + j = i.toNat + (j + 1) := fun j => by omega
    have hsum : ((List.range (m + 1)).map
          (fun j => (slot b (cbPointerCast (i.toNat + j))).size.toNat)).sum =
        (slot b (cbPointerCast i.toNat)).size.toNat + ((List.range m).map
          (fun j => (slot b (cbPointerCast ((i+1).toNat + j))).size.toNat)).sum := by
      rw [List.range_succ_eq_map,List.map_cons,List.map_map,List.sum_cons,hnext]
      simp only [Function.comp_def,Nat.succ_eq_add_one,hshift,Nat.add_zero]
    rw [hsum,← Nat.add_assoc pos] at hfit ⊢
    have hind : i ≠ ind := by
      rintro rfl
      exact hne 0 (Nat.succ_pos m) rfl
    have hwrap : longLong ((pos : ℤ) + (slot b (cbPointerCast i.toNat)).size.toNat) =
        ((pos + (slot b (cbPointerCast i.toNat)).size.toNat : ℕ) : ℤ) := by
      rw [longLong,Int.bmod_eq_of_le (by omega) (by omega),Nat.cast_add]
    have hrest : ∀ j < m, (i+1).toNat + j ≠ ind.toNat := by
      intro j hj
      rw [hnext,hshift j]
      exact hne (j + 1) (by omega)
    rw [show m + 1 + n = m + n + 1 by omega,jmpLoop,if_neg hind,hwrap,
      ih (i+1) _ (by omega) hrest hfit,hnext,hshift m]

theorem sum_take_sizes {b : AesdCircularBuffer} {k : ℕ} (hk : k ≤ (live b).length) :
    ((sizes b).take k).sum =
      ((List.range k).map (fun j => (slot b (cbPointerCast (b.outOffs.toNat + j))).size.toNat)).sum := by
  have hlen : (live b).length = (cbLoopUpperBoundary b).toNat - b.outOffs.toNat := by simp [live]
  rw [sizes,live,List.map_map,← List.map_take,List.take_range,← hlen,Nat.min_eq_left hk]
  rfl

/-- Entries as the callers of add_entry have them: a pointer and at least one byte. -/
def Stored (e : AesdBufferEntry) : Prop := e.buffptr ≠ .null ∧ e.size ≠ 0

/-- Before the wrap of the array the loop stops at the entry. -/
theorem jmpLoop_beforeWrap {b : AesdCircularBuffer} (hfit : (sizes b).sum < 2^63) {k : ℕ}
    (hk : k < (live b).length) (hwrap : b.outOffs.toNat + k < 10) :
    jmpLoop b (UInt8.ofNat (entryIndex b k)) (live b).length b.outOffs 0 = ((sizes b).take k).sum := by
  have hi : entryIndex b k = b.outOffs.toNat + k := Nat.mod_eq_of_lt hwrap
  have hind : (UInt8.ofNat (b.outOffs.toNat + k)).toNat = b.outOffs.toNat + k := by
    rw [UInt8.toNat_ofNat']
    omega
  have hle : ((sizes b).take k).sum ≤ (sizes b).sum := by
    have hmono := sum_take_le (sizes b) (show k ≤ (sizes b).length by simpa using hk.le)
    rwa [List.take_length] at hmono
  have hsum := sum_take_sizes hk.le
  obtain ⟨n,hn⟩ := Nat.exists_eq_add_of_lt hk
  have hloop := jmpLoop_add b (UInt8.ofNat (b.outOffs.toNat + k)) k (n + 1) b.outOffs 0
    (by omega) (by omega) (by omega)
  rw [jmpLoop,if_pos rfl,Nat.zero_add,← hsum,Nat.cast_zero] at hloop
  rw [hi,show (live b).length = k + (n + 1) by omega,hloop]

/-- Behind the wrap ind is smaller than every index of the loop, which runs to its end. -/
theorem jmpLoop_behindWrap {b : AesdCircularBuffer} (hv : Valid b) (hfit : (sizes b).sum < 2^63) {k : ℕ}
    (hk : k < 10) (hwrap : ¬ b.outOffs.toNat + k < 10) :
    jmpLoop b (UInt8.ofNat (entryIndex b k)) (live b).length b.outOffs 0 = (sizes b).sum := by
  have ho := hv.outLt
  have hten := length_live_le hv
  have hi : entryIndex b k + 10 = b.outOffs.toNat + k := by
    simp only [entryIndex,cbPointerCast,maxWriteOperationsSupported]
    omega
  have hind : (UInt8.ofNat (entryIndex b k)).toNat = entryIndex b k := by
    rw [UInt8.toNat_ofNat']
    omega
  have hall : ((sizes b).take (live b).length).sum = (sizes b).sum := by
    rw [← length_sizes,List.take_length]
  have hsum := sum_take_sizes (b := b) le_rfl
  rw [hall] at hsum
  have hloop := jmpLoop_add b (UInt8.ofNat (entryIndex b k)) (live b).length 0 b.outOffs 0
    (by omega) (by omega) (by omega)
  rwa [jmpLoop,← hsum,Nat.zero_add,Nat.add_zero,Nat.cast_zero] at hloop

theorem slot_of_unwritten {b : AesdCircularBuffer} (hv : Valid b) {k : ℕ} (hk : (live b).length ≤ k)
    (hten : k < 10) : (slot b (entryIndex b k)).buffptr = .null := by
  have hf : b.full = false := by
    by_contra hf
    have hfull := length_live_full hv (Bool.not_eq_false _ ▸ hf)
    omega
  have hin := length_live_of_notFull hv hf
  have hi : entryIndex b k = k := by
    simp only [entryIndex,cbPointerCast,maxWriteOperationsSupported,hv.partialOut hf,UInt8.toNat_zero]
    omega
  rw [hi,hv.partialZero hf _ (by omega)]
  rfl

/-- The jump accepts the offsets inside of live entries and no others. It is exact
before the wrap of the array, and adds up all entries behind it. -/
theorem jmp_spec {b : AesdCircularBuffer} (hv : Valid b) (hstored : ∀ e ∈ live b, Stored e)
    (hfit : (sizes b).sum < 2^63) (entrynum : UInt8) (offset : ℕ) :
    aesdCircularBufferJmpEntryOffset b entrynum offset =
      if entrynum.toNat < (live b).length ∧
          offset < (slot b (entryIndex b entrynum.toNat)).size.toNat then
        (if b.outOffs.toNat + entrynum.toNat < 10 then (((sizes b).take entrynum.toNat).sum : ℤ) + offset
        else longLong ((sizes b).sum + offset))
      else -EINVAL := by
  have hten := length_live_le hv
  have hup := (upperBoundary_eq hv).2
  unfold aesdCircularBufferJmpEntryOffset
  by_cases hlarge : maxWriteOperationsSupported ≤ entrynum.toNat
  · have hnot : ¬ entrynum.toNat < (live b).length := by
      simp only [maxWriteOperationsSupported] at hlarge
      omega
    simp [hlarge,hnot]
  simp only [maxWriteOperationsSupported,not_le] at hlarge
  have hind : (UInt8.ofNat (cbPointerCast (b.outOffs.toNat + entrynum.toNat))).toNat =
      entryIndex b entrynum.toNat := by
    simp only [entryIndex,cbPointerCast,maxWriteOperationsSupported,UInt8.toNat_ofNat']
    omega
  have hrange : (cbLoopUpperBoundary b).toNat - b.outOffs.toNat = (live b).length := by omega
  simp only [maxWriteOperationsSupported,not_le.mpr hlarge,if_false,hind,hrange]
  by_cases hlive : entrynum.toNat < (live b).length
  · have hmem : Stored (slot b (entryIndex b entrynum.toNat)) := by
      rw [entryIndex,slot_live hlive]
      exact hstored _ (List.getElem_mem hlive)
    by_cases hoff : offset < (slot b (entryIndex b entrynum.toNat)).size.toNat
    · have hgo : ¬ ((slot b (entryIndex b entrynum.toNat)).buffptr = .null ∨
          (slot b (entryIndex b entrynum.toNat)).size = 0 ∨
          (slot b (entryIndex b entrynum.toNat)).size.toNat ≤ offset) := by
        rintro (h | h | h)
        · exact hmem.1 h
        · exact hmem.2 h
        · omega
      rw [if_neg hgo,if_pos ⟨hlive,hoff⟩]
      split
      case isTrue hwrap =>
        have hmono := sum_take_le (sizes b) (show entrynum.toNat + 1 ≤ (live b).length by omega)
        rw [sum_take_succ (by simpa using hlive),getD_sizes hlive,← length_sizes,List.take_length] at hmono
        rw [← entryIndex,jmpLoop_beforeWrap hfit hlive hwrap,longLong,
          Int.bmod_eq_of_le (by omega) (by omega)]
      case isFalse hwrap => rw [← entryIndex,jmpLoop_behindWrap hv hfit hlarge hwrap]
    · have hno : (slot b (entryIndex b entrynum.toNat)).size.toNat ≤ offset := not_lt.mp hoff
      simp [hoff,hno]
  · simp [hlive,slot_of_unwritten hv (not_lt.mp hlive) hlarge]

theorem stored_of_added {es : List AesdBufferEntry} (hes : ∀ e ∈ es, Stored e) :
    ∀ e ∈ live (addEntries aesdCircularBufferInit es), Stored e := by
  intro e he
  rw [(live_addEntries es).2] at he
  exact hes e ((rtake_suffix es 10).subset he)

/-- Jump and lookup are inverse to each other at an entry and an offset exactly if the
offset is not in that entry or the entry stands before the wrap of the array. -/
theorem jmp_inverse_iff (es : List AesdBufferEntry) (hes : ∀ e ∈ es, Stored e)
    (hfit : ((es.rtake 10).map (fun e => e.size.toNat)).sum < 2^63) (entrynum : UInt8) (offset : ℕ) :
    let b := addEntries aesdCircularBufferInit es
    let pos := aesdCircularBufferJmpEntryOffset b entrynum offset
    ((pos ≠ -EINVAL → entrynum.toNat < (live b).length ∧
        pos = ((sizes b).take entrynum.toNat).sum + offset ∧
        aesdCircularBufferFindEntryOffsetForFpos b pos.toNat =
          some (entryIndex b entrynum.toNat,offset)) ∧
      (entrynum.toNat < (live b).length → ∀ p : ℕ,
        aesdCircularBufferFindEntryOffsetForFpos b p = some (entryIndex b entrynum.toNat,offset) →
          pos = p)) ↔
    (entrynum.toNat < (live b).length →
      offset < (slot b (entryIndex b entrynum.toNat)).size.toNat →
        b.outOffs.toNat + entrynum.toNat < 10) := by
  intro b pos
  obtain ⟨hv,hlive⟩ : Valid b ∧ live b = es.rtake 10 := live_addEntries es
  have hfit' : (sizes b).sum < 2^63 := by rwa [sizes,hlive]
  have hpos : pos = _ := jmp_spec hv (stored_of_added hes) hfit' entrynum offset
  constructor
  · rintro ⟨-,hinv⟩ hk ho
    by_contra hwrap
    have heq := hinv hk _ ((find_eq_some_iff hv hk).mpr ⟨ho,rfl⟩)
    have hmono := sum_take_le (sizes b) (show entrynum.toNat + 1 ≤ (live b).length by omega)
    rw [sum_take_succ (by simpa using hk),getD_sizes hk,← length_sizes,List.take_length] at hmono
    rw [hpos,if_pos ⟨hk,ho⟩,if_neg hwrap,longLong] at heq
    -- the two sums differ by less than 2^64
    have hmod : (((sizes b).sum : ℤ) + offset) % ((2^64 : ℕ) : ℤ) = _ := Int.bmod_emod.symm
    rw [heq,Int.emod_eq_of_lt (by omega) (by push_cast; omega),
      Int.emod_eq_of_lt (by omega) (by push_cast; omega)] at hmod
    omega
  · intro hcond
    by_cases hin : entrynum.toNat < (live b).length ∧
        offset < (slot b (entryIndex b entrynum.toNat)).size.toNat
    · rw [if_pos hin,if_pos (hcond hin.1 hin.2)] at hpos
      refine ⟨fun _ => ⟨hin.1,hpos,?_⟩,fun hk p hp => ?_⟩
      · apply (find_eq_some_iff hv hin.1).mpr
        refine ⟨hin.2,?_⟩
        rw [hpos]
        omega
      · rw [hpos,((find_eq_some_iff hv hk).mp hp).2]
        push_cast
        rfl
    · rw [if_neg hin] at hpos
      refine ⟨fun h => absurd hpos h,fun hk p hp => ?_⟩
      exact absurd ⟨hk,((find_eq_some_iff hv hk).mp hp).1⟩ hin

def twoEntries : List AesdBufferEntry := [⟨.block 0,2⟩,⟨.block 1,3⟩]

theorem twoEntries_jmp :
    let b := addEntries aesdCircularBufferInit twoEntries
    aesdCircularBufferJmpEntryOffset b 1 2 = 4 ∧
      aesdCircularBufferFindEntryOffsetForFpos b 4 = some (1,2) := by
  have hstored : ∀ e ∈ twoEntries, Stored e := by simp [twoEntries,Stored]
  obtain ⟨hjmp,-⟩ := (jmp_inverse_iff twoEntries hstored (by decide) 1 2).mpr
    (fun _ _ => by decide)
  obtain ⟨-,hsum,hfind⟩ := hjmp (by decide)
  rw [hsum] at hfind
  exact ⟨hsum.trans (by decide),hfind⟩

def elevenEntries : List AesdBufferEntry := (List.range 11).map (fun i => ⟨.block i,1⟩)

theorem elevenEntries_jmp :
    let b := addEntries aesdCircularBufferInit elevenEntries
    aesdCircularBufferJmpEntryOffset b 9 0 = 10 ∧ ((sizes b).take 9).sum + 0 = 9 ∧
      aesdCircularBufferFindEntryOffsetForFpos b 10 = none ∧
      aesdCircularBufferFindEntryOffsetForFpos b 9 = some (entryIndex b 9,0) := by
  decide

end Aesd.CircularBuffer
