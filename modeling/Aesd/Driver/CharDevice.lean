import Aesd.Driver.Kernel

/-! # The file operations of the char driver

main.c over explicit device and heap state. Each operation takes the outcomes of
the kernel services it calls and returns the value of the C function with the new
state. Arithmetic on size_t wraps; in particular count - 1 is computed as the
source computes it, also for a zero count.
-/
namespace Aesd.CharDevice
open CircularBuffer Kernel

def newline : UInt8 := 10
def endOfStr : UInt8 := 0

def EFAULT : ℤ := 14
def ENOTTY : ℤ := 25
def ERESTARTSYS : ℤ := 512

/-- struct aesd_dev without the lock and the cdev. -/
structure AesdDev where
  circularBuffer : AesdCircularBuffer
  tmpbuf : Ptr
  tmpbufSize : UInt64

/-- The device together with the kernel memory that its pointers refer to. -/
structure Driver where
  heap : KHeap
  dev : AesdDev

/-- Outcomes of the services one write relies on. The tail is the memory readable
behind the kmalloc'ed copy. -/
structure WriteEnv where
  lock : Bool
  kmalloc : Bool
  copy : Bool
  krealloc : Bool
  inPlace : Bool
  junk : ℕ → UInt8
  tail : List UInt8

def grantingEnv : WriteEnv := ⟨true,true,true,true,true,fun _ => 0,[endOfStr]⟩

/-- The scan of find_char from position pos on. The loop condition is a disjunction:
below size a NUL does not stop it, from size on only a NUL or the character does. -/
def findCharFrom (ch : UInt8) (size : ℕ) : ℕ → List UInt8 → Except Fault (Option ℕ)
  | _, [] => .error .outOfBounds
  | pos, b :: mem =>
    if pos < size ∨ b ≠ endOfStr then
      if b = ch then .ok (if pos < size then some pos else none)
      else findCharFrom ch size (pos+1) mem
    else .ok (if pos < size then some pos else none)

/-- find_char on the readable memory that starts at data. -/
def findChar (mem : List UInt8) (ch : UInt8) (size : ℕ) : Except Fault (Option ℕ) :=
  findCharFrom ch size 0 mem

/-- n iterations of the loop that appends data[i] to tmpbuf. -/
def copyLoop (data : List UInt8) : ℕ → ℕ → List UInt8 → UInt64 → Except Fault (List UInt8 × UInt64)
  | 0, _, tmp, size => .ok (tmp,size)
  | n+1, i, tmp, size =>
    match data[i]? with
    | none => .error .outOfBounds
    | some b =>
      if size.toNat < tmp.length then copyLoop data n (i+1) (tmp.set size.toNat b) (size+1)
      else .error .outOfBounds

def copyLine (h : KHeap) (tmpbuf data : Ptr) (dataInd tmpbufSize : UInt64) :
    Except Fault (UInt64 × KHeap) := do
  let tmp ← blockBytes h tmpbuf
  let src ← blockBytes h data
  let (tmp,size) ← copyLoop src (dataInd.toNat + 1) 0 tmp tmpbufSize
  match tmpbuf with
  | .block j =>
    match h.put j tmp with
    | some h' => .ok (size,h')
    | none => .error .outOfBounds
  | _ => .error .nullPtr

/-- The end of aesd_write: a line that is complete moves into the circular buffer,
and the block that falls out of it is released. -/
def pushLine (h : KHeap) (cb : AesdCircularBuffer) (tmpbuf : Ptr) (tmpbufSize : UInt64) :
    Except Fault Driver := do
  let tmp ← blockBytes h tmpbuf
  match tmp[(tmpbufSize - 1).toNat]? with
  | none => .error .outOfBounds
  | some last =>
    if last = newline then
      let (oldData,cb) := aesdCircularBufferAddEntry cb ⟨tmpbuf,tmpbufSize⟩
      let h ← if oldData = .null then .ok h else kfree h oldData
      return ⟨h,⟨cb,.null,0⟩⟩
    else return ⟨h,⟨cb,tmpbuf,tmpbufSize⟩⟩

/-- data_ind: where the newline was found, else count - 1. -/
def dataIndex (count : UInt64) : Option ℕ → UInt64
  | some i => UInt64.ofNat i
  | none => count - 1

/-- aesd_write from the krealloc on, with the copied data and the last index to take. -/
def storeData (env : WriteEnv) (k : Driver) (h : KHeap) (data : Ptr) (dataInd : UInt64) :
    Except Fault (ℤ × ℕ × Driver) := do
  let (tmpbuf,h) ← krealloc h k.dev.tmpbuf (k.dev.tmpbufSize + dataInd + 1).toNat
    env.krealloc env.inPlace env.junk
  let (size,h) ← copyLine h tmpbuf data dataInd k.dev.tmpbufSize
  let h ← kfree h data
  let k' ← pushLine h k.dev.circularBuffer tmpbuf size
  return (((dataInd + 1).toNat : ℤ),0,k')

/-- Return value, file position and driver after a write of count bytes at buf. -/
def aesdWrite (env : WriteEnv) (k : Driver) (buf : List UInt8) (count : UInt64) (fPos : ℕ) :
    Except Fault (ℤ × ℕ × Driver) :=
  if !env.lock then .ok (-ERESTARTSYS,fPos,k)
  else do
    let (data,h) := kmalloc k.heap count.toNat env.kmalloc env.junk
    -- data is not checked for NULL before it is written through
    let (left,h) ← copyFromUser env.copy h data buf count.toNat
    if left then
      let h ← kfree h data
      return (-EFAULT,0,{ k with heap := h })
    else
      let mem ← blockBytes h data
      let found ← findChar (mem ++ env.tail) newline count.toNat
      storeData env k h data (dataIndex count found)

structure ReadEnv where
  lock : Bool
  copy : Bool

/-- Return value, bytes handed to copy_to_user and file position after a read. The
count of the caller is not consulted. -/
def aesdRead (env : ReadEnv) (k : Driver) (_count : UInt64) (fPos : ℕ) :
    Except Fault (ℤ × List UInt8 × ℕ) :=
  if !env.lock then .ok (-ERESTARTSYS,[],fPos)
  else match aesdCircularBufferFindEntryOffsetForFpos k.dev.circularBuffer fPos with
    | none => .ok (0,[],fPos)
    | some (ind,dataOffset) => do
      let e := slot k.dev.circularBuffer ind
      let mem ← blockBytes k.heap e.buffptr
      let retval := e.size.toNat - dataOffset
      if mem.length < e.size.toNat then .error .outOfBounds
      else if env.copy then
        return ((retval : ℤ),(mem.drop dataOffset).take retval,fPos + retval)
      else return (-EFAULT,[],fPos)

/-- fixed_size_llseek of the kernel: f_pos, offset, whence and size to the return
value and the new f_pos. -/
abbrev FixedSizeLlseek := ℕ → ℤ → ℤ → ℤ → ℤ × ℕ

def SEEK_SET : ℤ := 0
def SEEK_END : ℤ := 2

/-- The size_t running size is passed as a signed loff_t. -/
def aesdLlseek (fixedSizeLlseek : FixedSizeLlseek) (lock : Bool) (k : Driver) (fPos : ℕ)
    (offset whence : ℤ) : ℤ × ℕ :=
  if !lock then (-ERESTARTSYS,fPos)
  else fixedSizeLlseek fPos offset whence (Int.bmod k.dev.circularBuffer.size.toNat (2^64))

structure AesdSeekto where
  writeCmd : UInt32
  writeCmdOffset : UInt32
  deriving DecidableEq

def AESD_IOC_MAGIC : ℕ := 0x16
def AESDCHAR_IOC_MAXNR : ℕ := 1
/-- _IOWR(AESD_IOC_MAGIC, 1, struct aesd_seekto), a struct of eight bytes. -/
def AESDCHAR_IOCSEEKTO : ℕ := 3 * 2^30 + 8 * 2^16 + AESD_IOC_MAGIC * 2^8 + 1

/-- Return value and f_pos after an ioctl; the command number of the argument
passes through the uint8_t parameter of the jump function. -/
def aesdUnlockedIoctl (copy lock : Bool) (k : Driver) (fPos : ℕ) (cmd : UInt32)
    (seekto : AesdSeekto) : ℤ × ℕ :=
  if cmd.toNat / 2^8 % 2^8 ≠ AESD_IOC_MAGIC then (-ENOTTY,fPos)
  else if AESDCHAR_IOC_MAXNR < cmd.toNat % 2^8 then (-ENOTTY,fPos)
  else if cmd.toNat = AESDCHAR_IOCSEEKTO then
    if !copy then (-EFAULT,fPos)
    else if !lock then (-ERESTARTSYS,fPos)
    else
      let pos := aesdCircularBufferJmpEntryOffset k.dev.circularBuffer
        (UInt8.ofNat seekto.writeCmd.toNat) seekto.writeCmdOffset.toNat
      if pos < 0 then (pos,fPos) else (0,pos.toNat)
  else (-ENOTTY,fPos)

/-- The device as a successful aesd_init_module leaves it. -/
def aesdInitModule : Driver where
  heap := Blocks.Heap.empty UInt8 kernelSpace
  dev := ⟨aesdCircularBufferInit,.null,0⟩

/-- AESD_CIRCULAR_BUFFER_FOREACH runs over all slots, used or not. -/
def aesdCleanupModule (k : Driver) : Except Fault KHeap := do
  let h ← (List.range maxWriteOperationsSupported).foldlM
    (fun h index => kfree h (slot k.dev.circularBuffer index).buffptr) k.heap
  if k.dev.tmpbuf = .null then return h else kfree h k.dev.tmpbuf

/-- The bytes [0,n) behind a pointer, as far as they exist. -/
def bytesAt (h : KHeap) (p : Ptr) (n : ℕ) : List UInt8 :=
  match p with
  | .block i => ((h.bytes i).getD []).take n
  | _ => []

/-- What the live entries hold, from the oldest to the newest. -/
def contents (k : Driver) : List (List UInt8) :=
  (live k.dev.circularBuffer).map (fun e => bytesAt k.heap e.buffptr e.size.toNat)

/-- tmpbuf[0..tmpbuf_size), the line that no newline has completed yet. -/
def pending (k : Driver) : List UInt8 := bytesAt k.heap k.dev.tmpbuf k.dev.tmpbufSize.toNat

end Aesd.CharDevice
