import Aesd.Driver.CharDevice
import Aesd.Driver.CircularBufferFifo
import Aesd.Foundation.LineStore

/-! # Which block the driver owns, and what a write does to it

A block belongs to the pending line, to one live entry, or to nobody because it
was released. Every operation is described once, by the owner lists before and
after it; line content, freedom of faults and the block accounting all come from
that description.
-/
namespace Aesd.CharDevice
open Blocks CircularBuffer Kernel Lines LineStore Window

def entryOf (b : Block) : AesdBufferEntry := ⟨.block b.1,UInt64.ofNat b.2.length⟩

/-- The pending line is the block tmp, the live entries are the blocks es, and no
other block is allocated. -/
structure Holds (k : Driver) (tmp : Option Block) (es : List Block) : Prop where
  ring : Valid k.dev.circularBuffer
  liveEq : live k.dev.circularBuffer = es.map entryOf
  tmpbufEq : k.dev.tmpbuf = ptrOf tmp
  sizeEq : k.dev.tmpbufSize = UInt64.ofNat (bytesOf tmp).length
  nonempty : ∀ b ∈ tmp.toList ++ es, b.2 ≠ []
  owns : k.heap.Owns (tmp.toList ++ es)

theorem holds_init : Holds aesdInitModule none [] where
  ring := valid_init
  liveEq := live_init
  tmpbufEq := rfl
  sizeEq := rfl
  nonempty := by simp
  owns := Heap.owns_empty

theorem toNat_length {h : KHeap} {bs : List Block} (ho : h.Owns bs) {b : Block} (hb : b ∈ bs) :
    (UInt64.ofNat b.2.length).toNat = b.2.length := by
  have h := (List.le_sum_of_mem (List.mem_map_of_mem (f := fun b : Block => b.2.length) hb)).trans
    ho.sum_le
  rw [UInt64.toNat_ofNat']
  simp only [kernelSpace] at h
  omega

theorem Holds.tmpbufSize_toNat {k : Driver} {tmp : Option Block} {es : List Block}
    (hk : Holds k tmp es) : k.dev.tmpbufSize.toNat = (bytesOf tmp).length := by
  rw [hk.sizeEq]
  cases tmp with
  | none => rfl
  | some b => exact toNat_length hk.owns (b := b) (by simp)

theorem Holds.pending_eq {k : Driver} {tmp : Option Block} {es : List Block} (hk : Holds k tmp es) :
    pending k = bytesOf tmp := by
  rw [pending,hk.tmpbufEq,hk.tmpbufSize_toNat]
  cases tmp with
  | none => rfl
  | some b => simp [bytesAt,ptrOf,bytesOf,hk.owns.owned b (by simp)]

theorem Holds.contents_eq {k : Driver} {tmp : Option Block} {es : List Block}
    (hk : Holds k tmp es) : contents k = es.map Prod.snd := by
  rw [contents,hk.liveEq,List.map_map]
  apply List.map_congr_left
  intro b hb
  have hm : b ∈ tmp.toList ++ es := List.mem_append_right _ hb
  simp only [Function.comp_apply,entryOf,bytesAt,hk.owns.owned b hm,toNat_length hk.owns hm,
    Option.getD_some,List.take_length]

/-! ## The scan and the copy loop -/

theorem findCharFrom_tail {ch : UInt8} {size pos : ℕ} {mem : List UInt8} (hp : size ≤ pos)
    (hm : ch ∈ mem ∨ endOfStr ∈ mem) : findCharFrom ch size pos mem = .ok none := by
  induction mem generalizing pos with
  | nil => simp at hm
  | cons b mem ih =>
    have hlt : ¬ pos < size := by omega
    simp only [findCharFrom,hlt,false_or,if_false]
    by_cases hb : b = endOfStr
    · simp [hb]
    · by_cases hc : b = ch
      · simp [hc]
      · rw [if_pos hb,if_neg hc]
        apply ih (by omega)
        simpa [Ne.symm hb,Ne.symm hc] using hm

/-- Below size the scan finds the first occurrence; without one it runs into the
memory behind the data until the character or a NUL stops it. -/
theorem findCharFrom_data {ch : UInt8} (pos : ℕ) {data tail : List UInt8}
    (hm : ch ∈ data ∨ ch ∈ tail ∨ endOfStr ∈ tail) :
    findCharFrom ch (pos + data.length) pos (data ++ tail) =
      .ok (if ch ∈ data then some (pos + data.idxOf ch) else none) := by
  induction data generalizing pos with
  | nil => simpa using findCharFrom_tail (le_refl pos) (by simpa using hm)
  | cons b data ih =>
    have hlt : pos < pos + (b :: data).length := by simp
    simp only [List.cons_append,findCharFrom,hlt,true_or,if_true]
    by_cases hb : b = ch
    · subst hb
      simp
    · have hmem : ch ∈ b :: data ↔ ch ∈ data := by simp [Ne.symm hb]
      have h := ih (pos + 1) (by rwa [hmem] at hm)
      rw [if_neg hb,show pos + (b :: data).length = pos + 1 + data.length by simp; omega,h]
      rw [List.idxOf_cons_ne _ hb]
      simp only [hmem,show pos + 1 + data.idxOf ch = pos + (data.idxOf ch).succ by omega]

theorem findChar_spec {ch : UInt8} {data tail : List UInt8}
    (hm : ch ∈ data ∨ ch ∈ tail ∨ endOfStr ∈ tail) :
    findChar (data ++ tail) ch data.length = .ok (if ch ∈ data then some (data.idxOf ch) else none) := by
  have h := findCharFrom_data 0 hm
  simpa [findChar] using h

theorem findCharFrom_overrun {ch : UInt8} {size pos : ℕ} {mem : List UInt8} (hp : size ≤ pos)
    (hm : ch ∉ mem) (hn : endOfStr ∉ mem) : findCharFrom ch size pos mem = .error .outOfBounds := by
  induction mem generalizing pos with
  | nil => rfl
  | cons b mem ih =>
    obtain ⟨hb,hm⟩ : b ≠ ch ∧ ch ∉ mem := by simpa [eq_comm] using hm
    obtain ⟨hb',hn⟩ : b ≠ endOfStr ∧ endOfStr ∉ mem := by simpa [eq_comm] using hn
    simp only [findCharFrom,hb',ne_eq,not_false_iff,or_true,if_true,if_neg hb]
    exact ih (by omega) hm hn

theorem findChar_overrun {ch : UInt8} {data tail : List UInt8} (hd : ch ∉ data)
    (ht : ch ∉ tail) (hn : endOfStr ∉ tail) :
    findChar (data ++ tail) ch data.length = .error .outOfBounds := by
  suffices h : ∀ pos, findCharFrom ch (pos + data.length) pos (data ++ tail) = .error .outOfBounds by
    simpa [findChar] using h 0
  induction data with
  | nil => exact fun pos => findCharFrom_overrun (by simp) (by simpa using ht) (by simpa using hn)
  | cons b data ih =>
    intro pos
    obtain ⟨hb,hd⟩ : b ≠ ch ∧ ch ∉ data := by simpa [eq_comm] using hd
    have hlt : pos < pos + (b :: data).length := by simp
    simp only [List.cons_append,findCharFrom,hlt,true_or,if_true,if_neg hb]
    rw [show pos + (b :: data).length = pos + 1 + data.length by simp; omega]
    exact ih hd (pos+1)

theorem copyLoop_spec (src : List UInt8) (n i : ℕ) (done room : List UInt8)
    (hi : i + n ≤ src.length) (hroom : room.length = n) (hsize : done.length + n < 2^64) :
    copyLoop src n i (done ++ room) (UInt64.ofNat done.length) =
      .ok (done ++ (src.drop i).take n,UInt64.ofNat (done.length + n)) := by
  induction n generalizing i done room with
  | zero =>
    have hr : room = [] := List.length_eq_zero_iff.mp hroom
    simp [copyLoop,hr]
  | succ n ih =>
    obtain ⟨r,room,rfl⟩ := List.exists_cons_of_length_eq_add_one hroom
    have hlt : i < src.length := by omega
    have hnat : (UInt64.ofNat done.length).toNat = done.length := by
      rw [UInt64.toNat_ofNat']
      omega
    have hset : (done ++ r :: room).set done.length src[i] = (done ++ [src[i]]) ++ room := by simp
    have hnext : UInt64.ofNat done.length + 1 = UInt64.ofNat (done ++ [src[i]]).length := by
      simp [UInt64.ofNat_add]
    simp only [copyLoop,List.getElem?_eq_getElem hlt,hnat,List.length_append,List.length_cons]
    rw [if_pos (by omega),hset,hnext,ih (i+1) (done ++ [src[i]]) room (by omega)
      (by simpa using hroom) (by simp; omega)]
    rw [List.drop_eq_getElem_cons hlt,List.take_succ_cons,List.append_assoc,List.singleton_append]
    simp only [List.length_append,List.length_cons,List.length_nil]
    rw [show done.length + (0 + 1) + n = done.length + (n + 1) by omega]

end Aesd.CharDevice
