import Aesd.Driver.Session
import Mathlib.Data.List.Rotate
import Mathlib.Tactic.IntervalCases

/-! # Every block is owned once and freed once

At any time the allocated blocks are the pending line and the live entries. The
cleanup walks over all ten slots in array order, which for a full buffer is a
rotation of the live entries and otherwise the live entries followed by NULLs.
-/
namespace Aesd.CircularBuffer

theorem range_rotate {i : ℕ} (hi : i < 10) :
    (List.range 10).rotate i = (List.range 10).map (fun j => (i + j) % 10) := by
  interval_cases i <;> decide

theorem slots_eq {b : AesdCircularBuffer} (hv : Valid b) :
    ∃ r n, (List.range 10).map (slot b) = (live b).rotate r ++ List.replicate n zeroEntry := by
  have hi := hv.inLt
  cases hf : b.full with
  | true =>
    refine ⟨10 - b.inOffs.toNat,0,?_⟩
    have hrot : live b = ((List.range 10).map (slot b)).rotate b.inOffs.toNat := by
      rw [live_full hv hf,← List.map_rotate,range_rotate hi,List.map_map]
      rfl
    rw [hrot,List.rotate_rotate,show b.inOffs.toNat + (10 - b.inOffs.toNat) = 10 by omega,
      List.replicate_zero,List.append_nil]
    have h := List.rotate_length ((List.range 10).map (slot b))
    simpa only [List.length_map,List.length_range] using h.symm
  | false =>
    refine ⟨0,10 - b.inOffs.toNat,?_⟩
    have hten : 10 = b.inOffs.toNat + (10 - b.inOffs.toNat) := by omega
    rw [List.rotate_zero,live_of_notFull hv hf]
    nth_rewrite 1 [hten]
    rw [List.range_add,List.map_append]
    congr 1
    rw [List.eq_replicate_iff]
    refine ⟨by simp,?_⟩
    intro e he
    obtain ⟨j,hj,rfl⟩ := List.mem_map.mp he
    obtain ⟨l,-,rfl⟩ := List.mem_map.mp hj
    exact hv.partialZero hf _ (Nat.le_add_right _ _)

end Aesd.CircularBuffer

namespace Aesd.CharDevice
open Blocks CircularBuffer Kernel

def ownedPtrs (k : Driver) : List Ptr :=
  (if k.dev.tmpbuf = .null then [] else [k.dev.tmpbuf]) ++
    (live k.dev.circularBuffer).map AesdBufferEntry.buffptr

theorem Holds.ownedPtrs_eq {k : Driver} {tmp : Option Block} {es : List Block} (hk : Holds k tmp es) :
    ownedPtrs k = (tmp.toList ++ es).map (fun b => .block b.1) := by
  rw [ownedPtrs,hk.tmpbufEq,hk.liveEq,List.map_append,List.map_map]
  congr 1
  cases tmp <;> rfl

theorem foldlM_kfree {h : KHeap} {es bs : List Block} (ho : h.Owns (es ++ bs)) (n : ℕ) :
    ∃ h', (es.map (fun b : Block => Ptr.block b.1) ++ List.replicate n Ptr.null).foldlM kfree h =
        .ok h' ∧ h'.Owns bs ∧ h'.next = h.next := by
  induction es generalizing h with
  | nil =>
    refine ⟨h,?_,ho,rfl⟩
    clear ho
    induction n with
    | zero => rfl
    | succ n ih => exact ih
  | cons b es ih =>
    obtain ⟨h₁,hfree,ho₁⟩ := kfree_owns ho
    obtain ⟨h₂,hrest,ho₂,hnext⟩ := ih ho₁
    refine ⟨h₂,?_,ho₂,hnext.trans (kfree_next hfree)⟩
    rw [List.map_cons,List.cons_append,List.foldlM_cons,hfree]
    exact hrest

/-- The cleanup releases all owned blocks and nothing else. -/
theorem aesdCleanupModule_spec {k : Driver} {tmp : Option Block} {es : List Block}
    (hk : Holds k tmp es) :
    ∃ h, aesdCleanupModule k = .ok h ∧ h.Owns [] ∧ h.next = k.heap.next := by
  obtain ⟨r,n,hslots⟩ := slots_eq hk.ring
  have hptrs : (List.range 10).map (fun i => (slot k.dev.circularBuffer i).buffptr) =
      (es.rotate r).map (fun b => Ptr.block b.1) ++ List.replicate n .null := by
    have h := congrArg (List.map AesdBufferEntry.buffptr) hslots
    rw [List.map_map,List.map_append,List.map_replicate,hk.liveEq,← List.map_rotate,List.map_map] at h
    exact h
  have ho : k.heap.Owns (es.rotate r ++ tmp.toList) :=
    hk.owns.perm (List.perm_append_comm.trans ((List.rotate_perm es r).symm.append_right _))
  obtain ⟨h₁,hfold,ho₁,hnext⟩ := foldlM_kfree ho n
  rw [← hptrs,List.foldlM_map] at hfold
  cases tmp with
  | none =>
    refine ⟨h₁,?_,ho₁,hnext⟩
    have hnull : k.dev.tmpbuf = .null := hk.tmpbufEq
    simp only [aesdCleanupModule,maxWriteOperationsSupported,hfold,hnull,bind,Except.bind,if_true]
    rfl
  | some b =>
    obtain ⟨h₂,hfree,ho₂⟩ := kfree_owns ho₁
    refine ⟨h₂,?_,ho₂,(kfree_next hfree).trans hnext⟩
    have hptr : k.dev.tmpbuf = .block b.1 := hk.tmpbufEq
    simp only [aesdCleanupModule,maxWriteOperationsSupported,hfold,hptr,bind,Except.bind,reduceCtorEq,
      if_false,hfree]

/-- The allocated blocks are the pending one and those of the live entries, all
distinct and none of them freed before; unloading the module has then freed every
block that was ever allocated exactly once. -/
def Accounted (k : Driver) : Prop :=
  (∀ i, (k.heap.bytes i).isSome ↔ .block i ∈ ownedPtrs k) ∧ (ownedPtrs k).Nodup ∧
  (∀ p ∈ ownedPtrs k, ∃ i, p = .block i ∧ i ∉ k.heap.freed) ∧
  ∃ h, aesdCleanupModule k = .ok h ∧ ∀ i < k.heap.next, h.freed.count i = 1

theorem Holds.accounted {k : Driver} {tmp : Option Block} {es : List Block} (hk : Holds k tmp es) :
    Accounted k := by
  obtain ⟨h,hclean,ho,hnext⟩ := aesdCleanupModule_spec hk
  have hptrs := hk.ownedPtrs_eq
  refine ⟨?_,?_,?_,h,hclean,?_⟩
  · intro i
    rw [hk.owns.isSome_iff,hptrs]
    simp
  · rw [hptrs,← Function.comp_def Ptr.block Prod.fst,← List.map_map]
    exact hk.owns.nodup.map (fun a b hab => Ptr.block.inj hab)
  · intro p hp
    rw [hptrs] at hp
    obtain ⟨b,hb,rfl⟩ := List.mem_map.mp hp
    refine ⟨b.1,rfl,?_⟩
    rw [← List.count_eq_zero,k.heap.once,hk.owns.owned b hb]
    simp
  · intro i hi
    rw [← hnext] at hi
    rw [h.once,ho.others i (by simp)]
    simp [hi]

/-- The blocks are accounted for after every run of calls that returned, whatever
failed in them. A run is only ever stopped by a refused allocation or by the scan
for the newline, and with neither of these it returns. -/
theorem blocks_owned_once_and_freed_once (fixedSizeLlseek : FixedSizeLlseek) (ops : List Op)
    (hops : ∀ op ∈ ops, op.Sized) :
    (∀ rs s, run fixedSizeLlseek start ops = .ok (rs,s) → Accounted s.driver) ∧
    (∀ f, run fixedSizeLlseek start ops = .error f → f = .nullPtr ∨ f = .outOfBounds) ∧
    ((∀ op ∈ ops, op.Ordinary) → AllocationsSucceed fixedSizeLlseek ops →
      ∃ rs s, run fixedSizeLlseek start ops = .ok (rs,s)) := by
  refine ⟨?_,?_,?_⟩
  · intro rs s hrun
    obtain ⟨tmp,es,hk⟩ := Reachable.holds ⟨fixedSizeLlseek,ops,rs,s,hops,hrun,rfl⟩
    exact hk.accounted
  · intro f hf
    rcases @run_outcome fixedSizeLlseek start _ _ _ holds_init hops with
      ⟨rs,s,tmp,es,hrun,-⟩ | herr | herr
    · simp [hrun] at hf
    · exact Or.inl (by simpa [herr] using hf.symm)
    · exact Or.inr (by simpa [herr] using hf.symm)
  · intro hord halloc
    obtain ⟨rs,s,tmp,es,hrun,-⟩ :=
      run_spec (s := start) holds_init hord ((allocationsSucceed_iff hops).mp halloc)
    exact ⟨rs,s,hrun⟩

/-- Eleven lines, so that one is evicted, a copy that fails, and an unfinished line. -/
def evictingOps : List Op :=
  let env : WriteEnv := ⟨true,true,true,true,false,fun _ => 7,[endOfStr]⟩
  List.replicate 11 (.write 0 env [97,10] 2) ++
    [.write 0 { env with copy := false } [98] 1,.read 1 ⟨true,true⟩ 16,.write 1 env [99] 1]

theorem evictingOps_accounted :
    ∃ rs s, run (fun f _ _ _ => (0,f)) start evictingOps = .ok (rs,s) ∧ Accounted s.driver := by
  have hsized : ∀ op ∈ evictingOps, op.Sized := by
    simp [evictingOps,Op.Sized]
  have hord : ∀ op ∈ evictingOps, op.Ordinary := by
    simp [evictingOps,Op.Ordinary]
  obtain ⟨hacc,-,hret⟩ := blocks_owned_once_and_freed_once (fun f _ _ _ => (0,f)) evictingOps hsized
  obtain ⟨rs,s,hrun⟩ := hret hord (by decide)
  exact ⟨rs,s,hrun,hacc rs s hrun⟩

end Aesd.CharDevice
