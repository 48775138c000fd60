import Aesd.Foundation.CString
import Aesd.Driver.CharDevice

/-! # The data file of the server

datafile.c for both values of USE_AESD_CHAR_DEVICE, which is the parameter charDevice
here. Without it the data file is a regular file, opened without O_APPEND, so that a
write goes to the offset of its descriptor; with it the file operations are those of
the driver. Opening and closing are steps of the threads that do it.
-/
namespace Aesd.Server
open CharDevice Kernel CString

/-- PTRDIFF_MAX; no allocation of the process is larger. -/
def userSpace : ℕ := 2^63 - 1

/-- Whether a realloc is granted, and what fresh memory holds. -/
structure ReallocEnv where
  granted : Bool
  junk : ℕ → UInt8

def realloc (block : List UInt8) (size : ℕ) (junk : ℕ → UInt8) : List UInt8 :=
  block.take size ++ (List.range (size - block.length)).map junk

def inBounds {α : Type} : Option α → Except Fault α
  | some a => .ok a
  | none => .error .outOfBounds

/-- append_string: *buf and *maxbuflen after it. The result of realloc is not checked. -/
def appendString (env : ReallocEnv) (buf : List UInt8) (maxbuflen buflen : UInt64)
    (inBuf : List UInt8) (n : ℕ) : Except Fault (List UInt8 × UInt64) :=
  if maxbuflen < buflen + UInt64.ofNat n + 1 then
    let size := maxbuflen + (buflen + 2 * UInt64.ofNat n)
    if env.granted ∧ size.toNat ≤ userSpace then
      (inBounds (strncat (realloc buf size.toNat env.junk) inBuf n)).map (fun b => (b,size))
    else .error .nullPtr
  else (inBounds (strncat buf inBuf n)).map (fun b => (b,maxbuflen))

def matchCmd : List UInt8 :=
  [65,69,83,68,67,72,65,82,95,73,79,67,83,69,69,75,84,79,58]

def comma : UInt8 := 44
def digitsSize : ℕ := 1024

/-- Locals of parse_seekto_cmd in its loop. -/
structure Scan where
  seenComma : Bool
  j : ℕ
  x : UInt32
  digits : List UInt8

/-- n iterations from index i on; none when the function returns -1 out of the loop. -/
def scanLoop (cmd : List UInt8) : ℕ → ℕ → Scan → Except Fault (Option Scan)
  | 0, _, st => .ok (some st)
  | n+1, i, st => do
    let b ← inBounds cmd[i]?
    if !st.seenComma ∧ b = comma then
      match ← inBounds (strtoul st.digits) with
      | none => return none
      | some x => scanLoop cmd n (i+1) ⟨true,0,UInt32.ofNat x.toNat,List.replicate digitsSize 0⟩
    else if st.j < digitsSize then
      scanLoop cmd n (i+1) { st with j := st.j + 1, digits := st.digits.set st.j b }
    else .error .outOfBounds

/-- parse_seekto_cmd: none for -1. The arguments x and y are what the two locals hold
before anything is assigned to them. -/
def parseSeektoCmd (x y : UInt32) (buf : List UInt8) (size : ℤ) : Except Fault (Option AesdSeekto) := do
  let s ← inBounds (cstr buf)
  match strstr s matchCmd with
  | none => return none
  | some pos =>
    let start : Scan := ⟨false,0,x,List.replicate digitsSize 0⟩
    -- the bound is the size of buf, also when the command does not start there
    match ← scanLoop (buf.drop pos) (size.toNat - matchCmd.length) matchCmd.length start with
    | none => return none
    | some st =>
      let digits ← inBounds (cstr st.digits)
      if digits = [] then return some ⟨st.x,y⟩
      else match ← inBounds (strtoul st.digits) with
        | none => return none
        | some y => return some ⟨st.x,UInt32.ofNat y.toNat⟩

/-- The regular file and the driver behind the device node. -/
structure DataFile where
  file : List UInt8
  device : Driver

inductive Whence where
  | set
  | fromEnd
  deriving DecidableEq

/-- A size_t or off_t that is stored in an int. -/
def intOf (n : ℕ) : ℤ := Int.bmod n (2^32)

/-- adjust_datafile_pos: return value and offset of the descriptor. -/
def adjustDatafilePos (charDevice ok : Bool) (d : DataFile) (fd : ℤ) (fPos offset : ℕ)
    (posKind : Whence) : ℤ × ℕ :=
  if charDevice then (0,fPos)
  else if fd < 0 ∨ ok = false then (-1,fPos)
  else
    let pos := match posKind with
      | .set => offset
      | .fromEnd => d.file.length + offset
    (intOf pos,pos)

/-- Outcomes of the calls of one append_datafile. -/
structure AppendEnv where
  write : WriteEnv
  ioctlCopy : Bool
  ioctlLock : Bool
  x : UInt32
  y : UInt32
  /-- What a write to the regular file returns, none for -1. -/
  count : Option ℕ

/-- The new offset and data, the bytes that the file took, and whether syslog reports
a failure. -/
structure AppendResult where
  failed : Bool
  fPos : ℕ
  data : DataFile
  accepted : List UInt8

/-- The most a write system call transfers on Linux. -/
def maxRwCount : ℕ := 0x7ffff000

/-- How many bytes a write system call hands on; a negative int is a size_t beyond
every buffer. -/
def writeCount (fd size : ℤ) : Option ℕ :=
  if fd < 0 ∨ size < 0 then none else some (min size.toNat maxRwCount)

/-- Bytes at an offset of a regular file, with a hole before them if it is behind the end. -/
def writeAt (file : List UInt8) (pos : ℕ) (bytes : List UInt8) : List UInt8 :=
  if bytes = [] then file
  else file.take pos ++ List.replicate (pos - file.length) 0 ++ bytes ++ file.drop (pos + bytes.length)

def writeFile (count : Option ℕ) (d : DataFile) (fd : ℤ) (fPos : ℕ) (buf : List UInt8) (size : ℤ) :
    AppendResult :=
  match writeCount fd size,count with
  | some n,some a =>
    let bytes := buf.take (min n a)
    ⟨false,fPos + bytes.length,{ d with file := writeAt d.file fPos bytes },bytes⟩
  | _,_ => ⟨true,fPos,d,[]⟩

def writeDevice (env : WriteEnv) (d : DataFile) (fd : ℤ) (fPos : ℕ) (buf : List UInt8) (size : ℤ) :
    Except Fault AppendResult :=
  match writeCount fd size with
  | none => .ok ⟨true,fPos,d,[]⟩
  | some n => do
    let (ret,pos,k) ← aesdWrite env d.device (buf.take n) (UInt64.ofNat n) fPos
    if ret < 0 then return ⟨true,fPos,{ d with device := k },[]⟩
    else return ⟨false,pos,{ d with device := k },(buf.take n).take ret.toNat⟩

def seekDevice (env : AppendEnv) (d : DataFile) (fd : ℤ) (fPos : ℕ) (seekto : AesdSeekto) :
    AppendResult :=
  if fd < 0 then ⟨true,fPos,d,[]⟩
  else
    let (ret,pos) := aesdUnlockedIoctl env.ioctlCopy env.ioctlLock d.device fPos
      (UInt32.ofNat AESDCHAR_IOCSEEKTO) seekto
    ⟨ret ≠ 0,pos,d,[]⟩

def appendDatafile (charDevice : Bool) (env : AppendEnv) (d : DataFile) (fd : ℤ) (fPos : ℕ)
    (buf : List UInt8) (size : ℤ) : Except Fault AppendResult :=
  if charDevice then do
    match ← parseSeektoCmd env.x env.y buf size with
    | some seekto => return seekDevice env d fd fPos seekto
    | none => writeDevice env.write d fd fPos buf size
  else .ok (writeFile env.count d fd fPos buf size)

def readbufSize : ℕ := 1024 * 100

/-- Outcomes of one read: of the driver, and for the regular file how many bytes after
the first one it delivers, none for -1. -/
structure ReadOutcome where
  device : ReadEnv
  more : Option ℕ

/-- read(data_fd, readbuf, sizeof(readbuf)): return value, bytes, new offset. What the
driver copies beyond its count lands behind readbuf. -/
def readDatafile (charDevice : Bool) (env : ReadOutcome) (d : DataFile) (fd : ℤ) (fPos : ℕ) :
    Except Fault (ℤ × List UInt8 × ℕ) :=
  if fd < 0 then .ok (-1,[],fPos)
  else if charDevice then do
    let (ret,data,pos) ← aesdRead env.device d.device (UInt64.ofNat readbufSize) fPos
    if readbufSize < data.length then .error .outOfBounds
    else if ret < 0 then return (-1,[],fPos)
    else return (ret,data,pos)
  else match env.more with
    | none => .ok (-1,[],fPos)
    | some m =>
      let data := ((d.file.drop fPos).take readbufSize).take (m+1)
      .ok ((data.length : ℤ),data,fPos + data.length)

end Aesd.Server
