import Aesd.Foundation.LineDevice
import Aesd.Driver.Boundaries

/-! # The driver as a device of lines

Every run of file operations returns what the abstract device of lines returns, call by
call: lengths, bytes, positions and error codes. The abstract machine also says where
the driver is no such device, namely in its seek command: the entry number is cut to
eight bits, and an entry behind the wrap of the array is not where the jump looks.
-/
namespace Aesd.CharDevice
open Blocks CircularBuffer Kernel Lines LineStore LineDevice Positions

instance (k : Driver) (cmd offset : ℕ) : Decidable (StoredAt k cmd offset) :=
  inferInstanceAs (Decidable (_ ∧ _))

theorem jmp_eq {k : Driver} {tmp : Option Block} {es : List Block} (hk : Holds k tmp es)
    (cmd offset : UInt32) :
    aesdCircularBufferJmpEntryOffset k.dev.circularBuffer (UInt8.ofNat cmd.toNat) offset.toNat =
      if StoredAt k (cmd.toNat % 256) offset.toNat then
        (if k.dev.circularBuffer.outOffs.toNat + cmd.toNat % 256 < 10 then
          (bytesBefore k (cmd.toNat % 256) : ℤ) + offset.toNat
        else ((contents k).flatten.length : ℤ) + offset.toNat)
      else -EINVAL := by
  obtain ⟨-,hfit⟩ := hk.size_toNat
  have hsizes : sizes k.dev.circularBuffer = (contents k).map List.length := hk.sizes_eq
  have hlen : (live k.dev.circularBuffer).length = (contents k).length := by simp [contents]
  have htotal : (sizes k.dev.circularBuffer).sum = (contents k).flatten.length := by
    rw [hsizes,List.length_flatten]
  simp only [kernelSpace] at hfit
  have hoffset := offset.toNat_lt
  have hwrap : longLong ((sizes k.dev.circularBuffer).sum + offset.toNat) =
      (sizes k.dev.circularBuffer).sum + offset.toNat := Int.bmod_eq_of_le (by omega) (by omega)
  rw [jmp_spec hk.ring hk.stored (by omega),UInt8.toNat_ofNat',show 2^8 = 256 from rfl,hlen,hwrap,htotal,
    hsizes]
  have hentry : cmd.toNat % 256 < (contents k).length → (slot k.dev.circularBuffer
      (entryIndex k.dev.circularBuffer (cmd.toNat % 256))).size.toNat =
        ((contents k).getD (cmd.toNat % 256) []).length := by
    intro hn
    rw [← getD_sizes (by omega),hsizes]
    simp [List.getD_eq_getElem?_getD,hn]
  have hstored : (cmd.toNat % 256 < (contents k).length ∧ offset.toNat < (slot k.dev.circularBuffer
      (entryIndex k.dev.circularBuffer (cmd.toNat % 256))).size.toNat) ↔
        StoredAt k (cmd.toNat % 256) offset.toNat := by
    constructor
    · rintro ⟨hn,ho⟩
      exact ⟨hn,by rwa [hentry hn] at ho⟩
    · rintro ⟨hn,ho⟩
      exact ⟨hn,by rwa [hentry hn]⟩
  simp only [hstored,bytesBefore]

abbrev Lined := Device UInt8 ℕ

/-- What the calls mean for the lines of the device: the reply and the lines after it. -/
def meaning (fixedSizeLlseek : FixedSizeLlseek) (d : Lined) : Op → Reply × Lined
  | .write file env buf _ =>
    if !env.lock then (⟨-ERESTARTSYS,[]⟩,d)
    else if !env.copy then (⟨-EFAULT,[]⟩,d)
    else
      let line := takeLine newline buf
      (⟨line.length,[]⟩,LineDevice.write newline 10 d file line)
  | .read file env _ =>
    let bytes := next d file
    if !env.lock then (⟨-ERESTARTSYS,[]⟩,d)
    else if !env.copy ∧ bytes ≠ [] then (⟨-EFAULT,[]⟩,d)
    else (⟨bytes.length,bytes⟩,moveTo d file (d.pos file + bytes.length))
  | .llseek file lock offset whence =>
    if !lock then (⟨-ERESTARTSYS,[]⟩,d)
    else
      let (ret,pos) := fixedSizeLlseek (d.pos file) offset whence (LineDevice.size d)
      (⟨ret,[]⟩,moveTo d file pos)
  | .ioctl file copy lock cmd seekto =>
    if cmd.toNat ≠ AESDCHAR_IOCSEEKTO then (⟨-ENOTTY,[]⟩,d)
    else if !copy then (⟨-EFAULT,[]⟩,d)
    else if !lock then (⟨-ERESTARTSYS,[]⟩,d)
    else
      let number := seekto.writeCmd.toNat % 256
      let offset := seekto.writeCmdOffset.toNat
      if ¬ Addressable d number offset then (⟨-EINVAL,[]⟩,d)
      else if oldest 10 d + number < 10 then (⟨0,[]⟩,moveTo d file (before d number + offset))
      else (⟨0,[]⟩,moveTo d file (LineDevice.size d + offset))

def meanings (fixedSizeLlseek : FixedSizeLlseek) : Lined → List Op → List Reply × Lined
  | d, [] => ([],d)
  | d, op :: ops =>
    let (r,d) := meaning fixedSizeLlseek d op
    let (rs,d) := meanings fixedSizeLlseek d ops
    (r :: rs,d)

/-! ## The input offset counts the lines -/

theorem pushLine_ring {h : KHeap} {cb : AesdCircularBuffer} {tmpbuf : Ptr} {size : UInt64} {k : Driver}
    (hk : pushLine h cb tmpbuf size = .ok k) :
    (k.dev.circularBuffer = cb ∧ k.dev.tmpbuf ≠ .null) ∨
      ((∃ e, k.dev.circularBuffer = (aesdCircularBufferAddEntry cb e).2) ∧ k.dev.tmpbuf = .null) := by
  unfold pushLine at hk
  cases tmpbuf with
  | null => simp [blockBytes,bind,Except.bind] at hk
  | zeroSize => simp [blockBytes,bind,Except.bind] at hk
  | block i =>
    cases hb : blockBytes h (.block i) with
    | error f => simp [hb,bind,Except.bind] at hk
    | ok tmp =>
      simp only [hb,bind,Except.bind] at hk
      split at hk
      · cases hk
      · split at hk
        · right
          split at hk
          · cases hk
            exact ⟨⟨_,rfl⟩,rfl⟩
          · split at hk
            · cases hk
            · cases hk
              exact ⟨⟨_,rfl⟩,rfl⟩
        · left
          cases hk
          exact ⟨rfl,by simp⟩

theorem storeData_ring {env : WriteEnv} {k k' : Driver} {h : KHeap} {data : Ptr} {dataInd : UInt64}
    {ret : ℤ} {pos : ℕ} (hk : storeData env k h data dataInd = .ok (ret,pos,k')) :
    (k'.dev.circularBuffer = k.dev.circularBuffer ∧ k'.dev.tmpbuf ≠ .null) ∨
      ((∃ e, k'.dev.circularBuffer = (aesdCircularBufferAddEntry k.dev.circularBuffer e).2) ∧
        k'.dev.tmpbuf = .null) := by
  simp only [storeData,bind,Except.bind] at hk
  split at hk
  · cases hk
  · split at hk
    · cases hk
    · split at hk
      · cases hk
      · split at hk
        · cases hk
        · rename_i hpush
          cases hk
          exact pushLine_ring hpush

theorem aesdWrite_ring {env : WriteEnv} {k k' : Driver} {buf : List UInt8} {count : UInt64}
    {fPos pos : ℕ} {ret : ℤ} (hret : 0 ≤ ret) (hk : aesdWrite env k buf count fPos = .ok (ret,pos,k')) :
    (k'.dev.circularBuffer = k.dev.circularBuffer ∧ k'.dev.tmpbuf ≠ .null) ∨
      ((∃ e, k'.dev.circularBuffer = (aesdCircularBufferAddEntry k.dev.circularBuffer e).2) ∧
        k'.dev.tmpbuf = .null) := by
  unfold aesdWrite at hk
  split at hk
  · cases hk
    simp [ERESTARTSYS] at hret
  · simp only [bind,Except.bind] at hk
    split at hk
    · cases hk
    · split at hk
      · split at hk
        · cases hk
        · cases hk
          simp [EFAULT] at hret
      · split at hk
        · cases hk
        · split at hk
          · cases hk
          · exact storeData_ring hk

/-- The abstract device behind a driver: its lines, and where the ring stands. -/
structure Represents (s : Session) (d : Lined) : Prop where
  holds : ∃ tmp es, Holds s.driver tmp es ∧ storeOf tmp es = d.store
  filled : Filled 10 d
  inOffs : s.driver.dev.circularBuffer.inOffs.toNat = d.added % 10
  pos : s.fPos = d.pos

theorem represents_start : Represents start empty where
  holds := ⟨none,[],holds_init,rfl⟩
  filled := filled_empty 10
  inOffs := rfl
  pos := rfl

theorem inOffs_addEntry (b : AesdCircularBuffer) (e : AesdBufferEntry) :
    (aesdCircularBufferAddEntry b e).2.inOffs.toNat = (b.inOffs.toNat + 1) % 10 := cbPointerInc_toNat _

theorem Represents.contents_eq {s : Session} {d : Lined} (h : Represents s d) :
    contents s.driver = d.store.1 := by
  obtain ⟨⟨tmp,es,hk,hst⟩,-,-,-⟩ := h
  rw [hk.contents_eq,← hst]
  rfl

theorem Represents.pending_eq {s : Session} {d : Lined} (h : Represents s d) :
    pending s.driver = d.store.2 := by
  obtain ⟨⟨tmp,es,hk,hst⟩,-,-,-⟩ := h
  rw [hk.pending_eq,← hst]
  rfl

theorem Represents.outOffs {s : Session} {d : Lined} (h : Represents s d) :
    s.driver.dev.circularBuffer.outOffs.toNat = oldest 10 d := by
  have hcon := h.contents_eq
  obtain ⟨⟨tmp,es,hk,-⟩,hfilled,hin,-⟩ := h
  have hlen : (live s.driver.dev.circularBuffer).length = min 10 d.added := by
    have hlive : (contents s.driver).length = (live s.driver.dev.circularBuffer).length := by simp [contents]
    rw [← hlive,hcon]
    exact hfilled
  have hfull := full_iff hk.ring
  unfold oldest
  cases hf : s.driver.dev.circularBuffer.full with
  | false =>
    rw [hf] at hfull
    have hlt : d.added < 10 := by
      by_contra hge
      exact absurd (hfull.mpr (by omega)) (by simp)
    rw [if_pos hlt,hk.ring.partialOut hf]
    rfl
  | true =>
    have hge : ¬ d.added < 10 := by
      have := hfull.mp hf
      omega
    rw [if_neg hge,← hin,hk.ring.fullEq hf]

theorem Holds.tmpbuf_null_iff {k : Driver} {tmp : Option Block} {es : List Block} (hk : Holds k tmp es) :
    k.dev.tmpbuf = .null ↔ pending k = [] := by
  rw [hk.tmpbufEq,hk.pending_eq]
  cases tmp with
  | none => simp [ptrOf,bytesOf]
  | some b => simpa [ptrOf,bytesOf] using hk.nonempty b (by simp)

variable {fixedSizeLlseek : FixedSizeLlseek}

theorem Represents.write {s : Session} {d : Lined} (h : Represents s d) {file : ℕ} {env : WriteEnv}
    {buf : List UInt8} {count : UInt64} (hop : Op.Ordinary (.write file env buf count))
    (halloc : aesdWrite env s.driver buf count (s.fPos file) ≠ .error .nullPtr)
    (hlock : env.lock = true) (hcopy : env.copy = true) :
    ∃ k', aesdWrite env s.driver buf count (s.fPos file) = .ok ((takeLine newline buf).length,0,k') ∧
      Represents ⟨k',Function.update s.fPos file 0⟩
        (LineDevice.write newline 10 d file (takeLine newline buf)) := by
  obtain ⟨hcount,hbuf,htail⟩ := hop
  obtain ⟨tmp,es,hk,hst⟩ := h.holds
  obtain ⟨r,pos,k',tmp',es',hw,hk',hres⟩ :=
    aesdWrite_spec hk env (s.fPos file) hcount hbuf (fun _ => Or.inr htail) halloc
  rw [hlock,hcopy,Bool.and_self,if_pos rfl] at hres
  obtain ⟨rfl,rfl,hst'⟩ := hres
  have hpending : pending k' = (accept newline 10 d.store (takeLine newline buf)).2 := by
    rw [hk'.pending_eq,← hst,← hst']
    rfl
  have hline : takeLine newline buf ≠ [] := List.length_pos_iff.mp (length_takeLine_pos newline hbuf)
  refine ⟨k',hw,⟨tmp',es',hk',by rw [hst',hst]; rfl⟩,h.filled.write file _,?_,by rw [h.pos]; rfl⟩
  have hnull := hk'.tmpbuf_null_iff
  rw [hpending,accept] at hnull
  rcases aesdWrite_ring (Int.natCast_nonneg _) hw with ⟨hring,hsome⟩ | ⟨⟨e,hring⟩,hnone⟩
  · have hopen : newline ∉ takeLine newline buf := by
      intro hmem
      rw [if_pos hmem] at hnull
      exact hsome (hnull.mpr rfl)
    simp only [LineDevice.write,if_neg hopen,hring]
    exact h.inOffs
  · have hclosed : newline ∈ takeLine newline buf := by
      by_contra hmem
      rw [if_neg hmem] at hnull
      exact hline (List.append_eq_nil_iff.mp (hnull.mp hnone)).2
    simp only [LineDevice.write,if_pos hclosed,hring,inOffs_addEntry,h.inOffs]
    omega

theorem Represents.moveTo {s : Session} {d : Lined} (h : Represents s d) (file p : ℕ) :
    Represents ⟨s.driver,Function.update s.fPos file p⟩ (LineDevice.moveTo d file p) where
  holds := h.holds
  filled := h.filled
  inOffs := h.inOffs
  pos := by rw [h.pos]; rfl

theorem Represents.stay {s : Session} {d : Lined} (h : Represents s d) {file p : ℕ}
    (hp : p = s.fPos file) : Represents ⟨s.driver,Function.update s.fPos file p⟩ d := by
  rw [hp,Function.update_eq_self]
  exact h

theorem storePos_neg {ret : ℤ} (hret : ret < 0) (fPos : ℕ → ℕ) (file pos : ℕ) :
    storePos fPos file ret pos = fPos := if_pos hret

theorem storePos_nonneg {ret : ℤ} (hret : 0 ≤ ret) (fPos : ℕ → ℕ) (file pos : ℕ) :
    storePos fPos file ret pos = Function.update fPos file pos := if_neg (not_lt.mpr hret)

theorem step_write {s : Session} {d : Lined} (h : Represents s d) {file : ℕ} {env : WriteEnv}
    {buf : List UInt8} {count : UInt64} (hop : Op.Ordinary (.write file env buf count))
    (halloc : step fixedSizeLlseek s (.write file env buf count) ≠ .error .nullPtr) :
    ∃ s', step fixedSizeLlseek s (.write file env buf count) =
        .ok ((meaning fixedSizeLlseek d (.write file env buf count)).1,s') ∧
      Represents s' (meaning fixedSizeLlseek d (.write file env buf count)).2 := by
  have hnull : aesdWrite env s.driver buf count (s.fPos file) ≠ .error .nullPtr := by
    intro herr
    exact halloc (by simp [step,herr,bind,Except.bind])
  obtain ⟨tmp,es,hk,hst⟩ := h.holds
  simp only [meaning]
  by_cases hlock : env.lock = true
  · by_cases hcopy : env.copy = true
    · obtain ⟨k',hw,hrep⟩ := h.write hop hnull hlock hcopy
      refine ⟨_,?_,by simpa [hlock,hcopy] using hrep⟩
      simp only [step,hw,bind,Except.bind,storePos_nonneg (Int.natCast_nonneg _)]
      simp [hlock,hcopy,pure,Except.pure]
    · have hcopy' : env.copy = false := by simpa using hcopy
      obtain ⟨hcount,hbuf,-⟩ := hop
      rcases aesdWrite_left hk env (s.fPos file) hcount hbuf hlock hcopy' with herr | ⟨h',hw,ho⟩
      · exact absurd herr hnull
      · have hk' : Holds { s.driver with heap := h' } tmp es :=
          ⟨hk.ring,hk.liveEq,hk.tmpbufEq,hk.sizeEq,hk.nonempty,ho⟩
        refine ⟨⟨{ s.driver with heap := h' },s.fPos⟩,?_,?_⟩
        · simp only [step,hw,bind,Except.bind,storePos_neg (show -EFAULT < 0 by decide)]
          simp [hlock,hcopy',pure,Except.pure]
        · simp only [hlock,hcopy',Bool.not_true,Bool.not_false,Bool.false_eq_true,if_false,if_true]
          exact ⟨⟨tmp,es,hk',hst⟩,h.filled,h.inOffs,h.pos⟩
  · have hlock' : env.lock = false := by simpa using hlock
    refine ⟨s,?_,by simpa [hlock'] using h⟩
    simp [step,aesdWrite,hlock',bind,Except.bind,pure,Except.pure,storePos_neg (show -ERESTARTSYS < 0 by decide)]

theorem step_read_meaning {s : Session} {d : Lined} (h : Represents s d) (file : ℕ) (env : ReadEnv)
    (count : UInt64) :
    ∃ s', step fixedSizeLlseek s (.read file env count) =
        .ok ((meaning fixedSizeLlseek d (.read file env count)).1,s') ∧
      Represents s' (meaning fixedSizeLlseek d (.read file env count)).2 := by
  obtain ⟨k,fPos⟩ := s
  obtain rfl : fPos = d.pos := h.pos
  obtain ⟨tmp,es,hk,-⟩ := h.holds
  have hread := aesdRead_spec hk env count (d.pos file)
  rw [show contents k = d.store.1 from h.contents_eq] at hread
  change _ = if env.lock = false then _ else if env.copy = false ∧ next d file ≠ [] then _ else
    Except.ok (((next d file).length : ℤ),next d file,d.pos file + (next d file).length) at hread
  simp only [meaning,step,bind,Except.bind]
  by_cases hlock : env.lock = false
  · rw [if_pos hlock] at hread
    refine ⟨_,?_,by simpa [hlock] using h⟩
    simp [hread,hlock,storePos_neg (show -ERESTARTSYS < 0 by decide),pure,Except.pure]
  · rw [if_neg hlock] at hread
    have hlock' : env.lock = true := by simpa using hlock
    by_cases hcopy : env.copy = false ∧ next d file ≠ []
    · rw [if_pos hcopy] at hread
      refine ⟨_,?_,by simpa [hlock',hcopy] using h⟩
      simp [hread,hlock',hcopy,storePos_neg (show -EFAULT < 0 by decide),pure,Except.pure]
    · rw [if_neg hcopy] at hread
      have hmean : ¬ ((!env.copy) = true ∧ next d file ≠ []) := by simpa using hcopy
      rw [hread,if_neg (by simp [hlock']),if_neg hmean]
      refine ⟨_,rfl,?_⟩
      rw [storePos_nonneg (Int.natCast_nonneg _)]
      exact h.moveTo file _

theorem step_llseek_meaning {s : Session} {d : Lined} (h : Represents s d) (file : ℕ) (lock : Bool)
    (offset whence : ℤ) :
    ∃ s', step fixedSizeLlseek s (.llseek file lock offset whence) =
        .ok ((meaning fixedSizeLlseek d (.llseek file lock offset whence)).1,s') ∧
      Represents s' (meaning fixedSizeLlseek d (.llseek file lock offset whence)).2 := by
  obtain ⟨tmp,es,hk,-⟩ := h.holds
  have hsize : Int.bmod s.driver.dev.circularBuffer.size.toNat (2^64) = (LineDevice.size d : ℤ) := by
    obtain ⟨hs,hfit⟩ := hk.size_toNat
    simp only [kernelSpace] at hfit
    rw [hs,Int.bmod_eq_of_le (by omega) (by omega),LineDevice.size,h.contents_eq]
  simp only [meaning,step,aesdLlseek,hsize,← h.pos]
  cases lock with
  | false => exact ⟨_,rfl,h.stay rfl⟩
  | true => exact ⟨_,rfl,h.moveTo file _⟩

theorem Represents.jmp {s : Session} {d : Lined} (h : Represents s d) (seekto : AesdSeekto) :
    aesdCircularBufferJmpEntryOffset s.driver.dev.circularBuffer (UInt8.ofNat seekto.writeCmd.toNat)
      seekto.writeCmdOffset.toNat =
      if Addressable d (seekto.writeCmd.toNat % 256) seekto.writeCmdOffset.toNat then
        (if oldest 10 d + seekto.writeCmd.toNat % 256 < 10 then
          ((before d (seekto.writeCmd.toNat % 256) + seekto.writeCmdOffset.toNat : ℕ) : ℤ)
        else ((LineDevice.size d + seekto.writeCmdOffset.toNat : ℕ) : ℤ))
      else -EINVAL := by
  obtain ⟨tmp,es,hk,-⟩ := h.holds
  have hcon := h.contents_eq
  have hstored : StoredAt s.driver (seekto.writeCmd.toNat % 256) seekto.writeCmdOffset.toNat ↔
      Addressable d (seekto.writeCmd.toNat % 256) seekto.writeCmdOffset.toNat := by
    rw [StoredAt,Addressable,hcon]
  simp only [jmp_eq hk,hstored,h.outOffs,bytesBefore,hcon,before,LineDevice.size,Nat.cast_add]

theorem step_ioctl_meaning {s : Session} {d : Lined} (h : Represents s d) (file : ℕ) (copy lock : Bool)
    (cmd : UInt32) (seekto : AesdSeekto) :
    ∃ s', step fixedSizeLlseek s (.ioctl file copy lock cmd seekto) =
        .ok ((meaning fixedSizeLlseek d (.ioctl file copy lock cmd seekto)).1,s') ∧
      Represents s' (meaning fixedSizeLlseek d (.ioctl file copy lock cmd seekto)).2 := by
  simp only [meaning]
  by_cases hcmd : cmd.toNat = AESDCHAR_IOCSEEKTO
  · obtain rfl : cmd = UInt32.ofNat AESDCHAR_IOCSEEKTO := UInt32.toNat_inj.mp hcmd
    simp only [step,ioctl_seekto,h.jmp,if_neg (not_not.mpr hcmd)]
    cases copy with
    | false => exact ⟨_,rfl,h.stay rfl⟩
    | true =>
      cases lock with
      | false => exact ⟨_,rfl,h.stay rfl⟩
      | true =>
        simp only [Bool.not_true,Bool.false_eq_true,if_false]
        by_cases hin : Addressable d (seekto.writeCmd.toNat % 256) seekto.writeCmdOffset.toNat
        · simp only [hin,if_true,not_true_eq_false,if_false]
          split
          · rw [if_neg (not_lt.mpr (Int.natCast_nonneg _))]
            exact ⟨_,rfl,h.moveTo file _⟩
          · rw [if_neg (not_lt.mpr (Int.natCast_nonneg _))]
            exact ⟨_,rfl,h.moveTo file _⟩
        · simp only [hin,if_false,not_false_eq_true,if_true]
          rw [if_pos (by decide)]
          exact ⟨_,rfl,h.stay rfl⟩
  · have hother : aesdUnlockedIoctl copy lock s.driver (s.fPos file) cmd seekto =
        (-ENOTTY,s.fPos file) := by
      simp only [aesdUnlockedIoctl,if_neg hcmd]
      split
      · rfl
      · split <;> rfl
    rw [if_pos hcmd]
    simp only [step,hother]
    exact ⟨_,rfl,h.stay rfl⟩

/-- One call answers as the device does and stands for the device after it. -/
theorem step_meaning {s : Session} {d : Lined} (h : Represents s d) {op : Op} (hop : op.Ordinary)
    (halloc : step fixedSizeLlseek s op ≠ .error .nullPtr) :
    ∃ s', step fixedSizeLlseek s op = .ok ((meaning fixedSizeLlseek d op).1,s') ∧
      Represents s' (meaning fixedSizeLlseek d op).2 := by
  cases op with
  | write file env buf count => exact step_write h hop halloc
  | read file env count => exact step_read_meaning h file env count
  | llseek file lock offset whence => exact step_llseek_meaning h file lock offset whence
  | ioctl file copy lock cmd seekto => exact step_ioctl_meaning h file copy lock cmd seekto

theorem run_meanings {s : Session} {d : Lined} (h : Represents s d) {ops : List Op}
    (hops : ∀ op ∈ ops, op.Ordinary) (halloc : run fixedSizeLlseek s ops ≠ .error .nullPtr) :
    ∃ s', run fixedSizeLlseek s ops = .ok ((meanings fixedSizeLlseek d ops).1,s') ∧
      Represents s' (meanings fixedSizeLlseek d ops).2 := by
  induction ops generalizing s d with
  | nil => exact ⟨s,rfl,h⟩
  | cons op ops ih =>
    have hnull : step fixedSizeLlseek s op ≠ .error .nullPtr := by
      intro herr
      exact halloc (by simp [run,herr,bind,Except.bind])
    obtain ⟨s₁,hstep,hs₁⟩ := step_meaning h (hops op List.mem_cons_self) hnull
    rw [run_cons hstep] at halloc ⊢
    have hrest : run fixedSizeLlseek s₁ ops ≠ .error .nullPtr := by
      intro herr
      exact halloc (by rw [herr]; rfl)
    obtain ⟨s₂,hrun,hs₂⟩ := ih hs₁ (fun o ho => hops o (List.mem_cons_of_mem _ ho)) hrest
    exact ⟨s₂,by rw [hrun]; rfl,hs₂⟩

/-- Every run of calls that no refused allocation stops answers, reply by reply, as the
device of lines does, and ends with its lines, its unfinished line and its positions. -/
theorem session_refines {ops : List Op} (hops : ∀ op ∈ ops, op.Ordinary)
    (halloc : AllocationsSucceed fixedSizeLlseek ops) :
    ∃ s, run fixedSizeLlseek start ops = .ok ((meanings fixedSizeLlseek empty ops).1,s) ∧
      (contents s.driver,pending s.driver) = (meanings fixedSizeLlseek empty ops).2.store ∧
      s.fPos = (meanings fixedSizeLlseek empty ops).2.pos := by
  have hnull := (allocationsSucceed_iff (fun op hop => (hops op hop).sized)).mp halloc
  obtain ⟨s,hrun,hs⟩ := run_meanings represents_start hops hnull
  exact ⟨s,hrun,by rw [hs.contents_eq,hs.pending_eq],hs.pos⟩

/-- Two lines, the first one in two pieces, through one file; a seek command through
another file and the read behind it. -/
def seekingOps : List Op :=
  [.write 0 grantingEnv [97] 1,.write 0 grantingEnv [10,98] 2,.write 0 grantingEnv [98,99,10] 3,
    .ioctl 1 true true (UInt32.ofNat AESDCHAR_IOCSEEKTO) ⟨1,1⟩,.read 1 ⟨true,true⟩ 1,
    .llseek 1 true 3 SEEK_SET,.read 1 ⟨true,true⟩ 100]

theorem seekingOps_replies : ∃ s, run boundedLlseek start seekingOps =
      .ok ([⟨1,[]⟩,⟨1,[]⟩,⟨3,[]⟩,⟨0,[]⟩,⟨2,[99,10]⟩,⟨3,[]⟩,⟨2,[99,10]⟩],s) ∧
    contents s.driver = [[97,10],[98,99,10]] ∧ s.fPos 1 = 5 := by
  have hops : ∀ op ∈ seekingOps, op.Ordinary := by
    simp [seekingOps,Op.Ordinary,grantingEnv]
  obtain ⟨s,hrun,hstore,hpos⟩ := @session_refines boundedLlseek seekingOps hops (by decide)
  exact ⟨s,hrun,congrArg Prod.fst hstore,congrFun hpos 1⟩

end Aesd.CharDevice
