import Aesd.Driver.WriteSpec
import Aesd.Foundation.Positions

/-! # Lookup and read

The lookup walks the live entries in order and stops at the one that contains the
position; a read hands out the rest of that entry. Both are the general position
lookup and piecewise reader on the contents of the device.
-/
namespace Aesd.CircularBuffer
open Positions

/-- The loop visits the slots from i on, reduced modulo ten, and never wraps i. -/
theorem findLoop_eq (b : AesdCircularBuffer) (n : ℕ) (i : UInt8) (p : ℕ) (hi : i.toNat + n < 256) :
    findLoop b n i p =
      (locate ((List.range n).map (fun j => (slot b (cbPointerCast (i.toNat + j))).size.toNat)) p).map
        (fun q => (cbPointerCast (i.toNat + q.1),q.2)) := by
  induction n generalizing i p with
  | zero => rfl
  | succ n ih =>
    have hnext : (i+1).toNat = i.toNat + 1 := by
      rw [UInt8.toNat_add]
      change (i.toNat + 1) % 2^8 = _
      omega
    rw [List.range_succ_eq_map,List.map_cons,List.map_map,findLoop,locate,Nat.add_zero]
    split
    · rfl
    · rw [ih (i+1) _ (by omega),hnext,Option.map_map]
      have hshift : ∀ j : ℕ, i.toNat + 1 + j = i.toNat + j.succ := fun j => by omega
      simp only [Function.comp_def,hshift]

theorem upperBoundary_lt {b : AesdCircularBuffer} (hv : Valid b) :
    (cbLoopUpperBoundary b).toNat < 20 := by
  have hi := hv.inLt
  unfold cbLoopUpperBoundary
  split
  · simp only [UInt8.toNat_add,UInt8.toNat_ofNat',maxWriteOperationsSupported]
    omega
  · omega

theorem find_eq_locate {b : AesdCircularBuffer} (hv : Valid b) (p : ℕ) :
    aesdCircularBufferFindEntryOffsetForFpos b p =
      (locate ((live b).map (fun e => e.size.toNat)) p).map
        (fun q => (cbPointerCast (b.outOffs.toNat + q.1),q.2)) := by
  have hu := upperBoundary_lt hv
  have ho := hv.outLt
  rw [aesdCircularBufferFindEntryOffsetForFpos,findLoop_eq _ _ _ _ (by omega),live,List.map_map]
  rfl

theorem slot_live {b : AesdCircularBuffer} {k : ℕ} (hk : k < (live b).length) :
    slot b (cbPointerCast (b.outOffs.toNat + k)) = (live b)[k] := by
  simp [live]

end Aesd.CircularBuffer

namespace Aesd.CharDevice
open Blocks CircularBuffer Kernel Positions

theorem Holds.sizes_eq {k : Driver} {tmp : Option Block} {es : List Block} (hk : Holds k tmp es) :
    (live k.dev.circularBuffer).map (fun e => e.size.toNat) = (contents k).map List.length := by
  rw [hk.contents_eq,hk.liveEq,List.map_map,List.map_map]
  apply List.map_congr_left
  intro b hb
  exact toNat_length hk.owns (List.mem_append_right _ hb)

/-- A read returns what the piecewise reader hands out; nothing else changes, and it
never faults. -/
theorem aesdRead_spec {k : Driver} {tmp : Option Block} {es : List Block} (hk : Holds k tmp es)
    (env : ReadEnv) (count : UInt64) (p : ℕ) :
    aesdRead env k count p =
      if env.lock = false then .ok (-ERESTARTSYS,[],p)
      else if env.copy = false ∧ readAt (contents k) p ≠ [] then .ok (-EFAULT,[],p)
      else .ok (((readAt (contents k) p).length : ℤ),readAt (contents k) p,
        p + (readAt (contents k) p).length) := by
  cases hlock : env.lock with
  | false => simp [aesdRead,hlock]
  | true =>
    simp only [aesdRead,hlock,find_eq_locate hk.ring,hk.sizes_eq,Bool.not_true,Bool.false_eq_true,
      if_false,reduceCtorEq]
    cases hloc : locate ((contents k).map List.length) p with
    | none => simp [readAt,hloc]
    | some q =>
      obtain ⟨j,o⟩ := q
      obtain ⟨hlt,ho,-⟩ := locate_spec hloc
      have hcon := hk.contents_eq
      have hjes : j < es.length := by simpa [hcon] using hlt
      have hjl : j < (live k.dev.circularBuffer).length := by simpa [hk.liveEq] using hjes
      have hmem : es[j] ∈ tmp.toList ++ es := List.mem_append_right _ (List.getElem_mem hjes)
      have hslot : slot k.dev.circularBuffer (cbPointerCast (k.dev.circularBuffer.outOffs.toNat + j)) =
          entryOf es[j] := by
        rw [slot_live hjl]
        simp [hk.liveEq]
      have hblock := blockBytes_owns hk.owns hmem
      have hsize : (entryOf es[j]).size.toNat = es[j].2.length := toNat_length hk.owns hmem
      have hread : readAt (contents k) p = es[j].2.drop o := by
        simp only [readAt,hloc]
        simp [hcon,List.getD_eq_getElem?_getD,hjes]
      have hne : readAt (contents k) p ≠ [] := by
        rw [Ne,readAt_eq_nil_iff,List.length_flatten,← locate_eq_none_iff,hloc]
        simp
      have hlen : (es[j].2.drop o).length = es[j].2.length - o := List.length_drop
      change blockBytes k.heap (entryOf es[j]).buffptr = _ at hblock
      simp only [Option.map_some,hslot,hblock,hsize,bind,Except.bind,lt_irrefl,if_false,hread,hlen,
        ne_eq]
      cases env.copy with
      | false =>
        have hne' : es[j].2.drop o ≠ [] := hread ▸ hne
        simp [hne',pure,Except.pure]
      | true =>
        have htake : (es[j].2.drop o).take (es[j].2.length - o) = es[j].2.drop o :=
          List.take_of_length_le (by simp)
        simp [htake,pure,Except.pure]

end Aesd.CharDevice
