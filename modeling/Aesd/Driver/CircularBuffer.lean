import Aesd.Foundation.Window
import Mathlib.Data.UInt
import Mathlib.Algebra.BigOperators.Group.List.Basic

/-! # The circular buffer of the char driver

The fields have the widths of struct aesd_circular_buffer: the offsets are
uint8_t, the sizes size_t with their wrapping arithmetic. The array is indexed as
the source does it; a slot outside of it reads as a zeroed entry, which never
happens from the initial buffer on because both offsets stay below ten.
-/
namespace Aesd.CircularBuffer
open Window

/-- Kernel pointers: NULL, the result of a zero-length allocation, or a block. -/
inductive Ptr where
  | null
  | zeroSize
  | block (id : ℕ)
  deriving DecidableEq

structure AesdBufferEntry where
  buffptr : Ptr
  size : UInt64
  deriving DecidableEq

def zeroEntry : AesdBufferEntry := ⟨.null,0⟩

/-- LENGTH(entries), the macro AESDCHAR_MAX_WRITE_OPERATIONS_SUPPORTED. -/
abbrev maxWriteOperationsSupported : ℕ := 10

structure AesdCircularBuffer where
  entry : Vector AesdBufferEntry maxWriteOperationsSupported
  inOffs : UInt8
  outOffs : UInt8
  full : Bool
  size : UInt64

def slot (b : AesdCircularBuffer) (i : ℕ) : AesdBufferEntry := (b.entry[i]?).getD zeroEntry

def cbPointerInc (pointer : UInt8) : UInt8 :=
  UInt8.ofNat ((pointer.toNat + 1) % maxWriteOperationsSupported)

def cbPointerCast (pointer : ℕ) : ℕ := pointer % maxWriteOperationsSupported

/-- The upper boundary is a uint8_t as well and is widened by LENGTH only when full. -/
def cbLoopUpperBoundary (b : AesdCircularBuffer) : UInt8 :=
  if b.full then b.inOffs + UInt8.ofNat maxWriteOperationsSupported else b.inOffs

/-- The loop of the lookup over i < upper_boundary, n iterations of it left. -/
def findLoop (b : AesdCircularBuffer) : ℕ → UInt8 → ℕ → Option (ℕ × ℕ)
  | 0, _, _ => none
  | n+1, i, charOffset =>
    let ind := cbPointerCast i.toNat
    let blockLen := (slot b ind).size.toNat
    if charOffset < blockLen then some (ind,charOffset)
    else findLoop b n (i+1) (charOffset - blockLen)

/-- The slot that holds the position and the byte offset inside of it. -/
def aesdCircularBufferFindEntryOffsetForFpos (b : AesdCircularBuffer) (charOffset : ℕ) :
    Option (ℕ × ℕ) :=
  findLoop b ((cbLoopUpperBoundary b).toNat - b.outOffs.toNat) b.outOffs charOffset

/-- The type long long of a position, which a sum with a size_t wraps into. -/
def longLong (n : ℤ) : ℤ := Int.bmod n (2^64)

/-- The summing loop of the jump: it leaves early only at an i equal to ind itself. -/
def jmpLoop (b : AesdCircularBuffer) (ind : UInt8) : ℕ → UInt8 → ℤ → ℤ
  | 0, _, pos => pos
  | n+1, i, pos =>
    if i = ind then pos
    else jmpLoop b ind n (i+1) (longLong (pos + (slot b (cbPointerCast i.toNat)).size.toNat))

def EINVAL : ℤ := 22

def aesdCircularBufferJmpEntryOffset (b : AesdCircularBuffer) (entrynum : UInt8) (offset : ℕ) : ℤ :=
  if maxWriteOperationsSupported ≤ entrynum.toNat then -EINVAL
  else
    let ind := UInt8.ofNat (cbPointerCast (b.outOffs.toNat + entrynum.toNat))
    let e := slot b ind.toNat
    if e.buffptr = .null ∨ e.size = 0 ∨ e.size.toNat ≤ offset then -EINVAL
    else
      longLong (jmpLoop b ind ((cbLoopUpperBoundary b).toNat - b.outOffs.toNat) b.outOffs 0 + offset)

/-- The new buffer together with the buffptr of the entry that was overwritten. -/
def aesdCircularBufferAddEntry (b : AesdCircularBuffer) (addEntry : AesdBufferEntry) :
    Ptr × AesdCircularBuffer :=
  let oldBuf := if b.full then (slot b b.inOffs.toNat).buffptr else .null
  let outOffs := if b.full then cbPointerInc b.outOffs else b.outOffs
  let inOffs := cbPointerInc b.inOffs
  (oldBuf,
    { entry := b.entry.setIfInBounds b.inOffs.toNat addEntry
      inOffs := inOffs
      outOffs := outOffs
      full := inOffs == outOffs
      size := b.size + (addEntry.size - (slot b b.inOffs.toNat).size) })

def aesdCircularBufferInit : AesdCircularBuffer where
  entry := Vector.replicate maxWriteOperationsSupported zeroEntry
  inOffs := 0
  outOffs := 0
  full := false
  size := 0

/-- The entries that the loops visit, from the oldest to the newest. -/
def live (b : AesdCircularBuffer) : List AesdBufferEntry :=
  (List.range ((cbLoopUpperBoundary b).toNat - b.outOffs.toNat)).map
    (fun j => slot b (cbPointerCast (b.outOffs.toNat + j)))

/-- The representation invariant of the two offsets, the flag and the running size. -/
structure Valid (b : AesdCircularBuffer) : Prop where
  inLt : b.inOffs.toNat < 10
  outLt : b.outOffs.toNat < 10
  fullEq : b.full = true → b.inOffs = b.outOffs
  partialOut : b.full = false → b.outOffs = 0
  partialZero : b.full = false → ∀ j, b.inOffs.toNat ≤ j → slot b j = zeroEntry
  sizeEq : b.size = ((live b).map AesdBufferEntry.size).sum

@[simp] theorem cbPointerInc_toNat (p : UInt8) :
    (cbPointerInc p).toNat = (p.toNat + 1) % 10 := by
  simp only [cbPointerInc,maxWriteOperationsSupported,UInt8.toNat_ofNat']
  omega

theorem slot_init (i : ℕ) : slot aesdCircularBufferInit i = zeroEntry := by
  simp only [slot,aesdCircularBufferInit,Vector.getElem?_replicate]
  split <;> rfl

theorem slot_addEntry {b : AesdCircularBuffer} (hi : b.inOffs.toNat < 10)
    (e : AesdBufferEntry) (j : ℕ) :
    slot (aesdCircularBufferAddEntry b e).2 j = if j = b.inOffs.toNat then e else slot b j := by
  simp only [slot,aesdCircularBufferAddEntry,Vector.getElem?_setIfInBounds]
  by_cases hj : j = b.inOffs.toNat
  · simp [hj,hi]
  · rw [if_neg hj,if_neg (Ne.symm hj)]

theorem live_full {b : AesdCircularBuffer} (hv : Valid b) (hf : b.full = true) :
    live b = (List.range 10).map (fun j => slot b ((b.inOffs.toNat + j) % 10)) := by
  have hin := hv.inLt
  have hup : (cbLoopUpperBoundary b).toNat = b.inOffs.toNat + 10 := by
    simp only [cbLoopUpperBoundary,maxWriteOperationsSupported,hf,if_true,UInt8.toNat_add,
      UInt8.toNat_ofNat']
    omega
  simp only [live,hup,← hv.fullEq hf,cbPointerCast]
  rw [show b.inOffs.toNat + 10 - b.inOffs.toNat = 10 by omega]

theorem live_of_notFull {b : AesdCircularBuffer} (hv : Valid b) (hf : b.full = false) :
    live b = (List.range b.inOffs.toNat).map (fun j => slot b j) := by
  have hin := hv.inLt
  have hup : cbLoopUpperBoundary b = b.inOffs := by simp [cbLoopUpperBoundary,hf]
  simp only [live,hup,hv.partialOut hf,cbPointerCast]
  apply List.map_congr_left
  intro j hj
  have hj' : j < b.inOffs.toNat := by simpa using hj
  simp only [UInt8.toNat_zero,Nat.zero_add]
  rw [Nat.mod_eq_of_lt (show j < 10 by omega)]

end Aesd.CircularBuffer
