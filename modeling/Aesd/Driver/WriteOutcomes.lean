import Aesd.Driver.SeekRead

/-! # Writes of no bytes and writes without memory

Three things aesd_write does not look at. Its scan goes on behind the copied bytes until
it meets a newline or a NUL. A zero count makes it scan a copy that has no bytes, and
would make count - 1 the largest size_t. NULL from either allocation is written through,
the second one after it has replaced the pointer to the pending line.
-/
namespace Aesd.CharDevice
open Blocks CircularBuffer Kernel Lines LineStore

/-! ## The scan without memory behind it -/

/-- Where exactly the bytes of data can be read, find_char answers if and only if the
character is there; the first byte behind them is read otherwise. -/
theorem findChar_within_iff (data : List UInt8) (ch : UInt8) :
    findChar data ch data.length = .ok (if ch ∈ data then some (data.idxOf ch) else none) ↔
      ch ∈ data := by
  have hmem : data ++ [] = data := List.append_nil data
  constructor
  · intro h
    by_contra hd
    have hover := @findChar_overrun ch data [] hd (by simp) (by simp)
    rw [hmem,h] at hover
    simp at hover
  · intro hd
    have hfound := @findChar_spec ch data [] (Or.inl hd)
    rwa [hmem] at hfound

/-- No newline in "a". -/
theorem findChar_overruns : findChar [97] newline 1 = .error .outOfBounds ∧
    ¬ findChar [97] newline 1 = .ok (if newline ∈ [97] then some ([97].idxOf newline) else none) := by
  decide

/-! ## A write that gets its memory -/

/-- A write that gets its memory and its copy stays within its buffers exactly if it has
a byte to write and its scan meets a newline or a NUL: then it returns how many bytes it
took, between one and the count. A zero-length write never returns. -/
theorem write_bounded_iff {k : Driver} (hk : Reachable k) {env : WriteEnv} {buf : List UInt8}
    {count : UInt64} (fPos : ℕ) (hcount : count.toNat = buf.length) (hlock : env.lock = true)
    (hcopy : env.copy = true) (hkmalloc : kmallocFails env k count = false)
    (hkrealloc : kreallocFails env k buf count = false) :
    (∃ r pos k', aesdWrite env k buf count fPos = .ok (r,pos,k') ∧ 0 ≤ r ∧ r ≤ count.toNat ∧
      (count = 0 → r = 0 ∧ k'.dev = k.dev ∧ contents k' = contents k ∧ pending k' = pending k)) ↔
    (count ≠ 0 ∧ (newline ∈ buf ∨ newline ∈ env.tail ∨ endOfStr ∈ env.tail)) := by
  obtain ⟨tmp,es,hk⟩ := hk.holds
  have halloc : aesdWrite env k buf count fPos ≠ .error .nullPtr := by
    rw [Ne,aesdWrite_nullPtr_iff hk fPos hcount]
    simp [hkmalloc,hkrealloc]
  have hzero : count = 0 ↔ buf = [] := by
    rw [← UInt64.toNat_inj,hcount,← List.length_eq_zero_iff]
    rfl
  constructor
  · rintro ⟨r,pos,k',hw,-⟩
    have hbuf : buf ≠ [] := by
      intro hbuf
      have hcount' : count.toNat = 0 := by simp [hcount,hbuf]
      simp [aesdWrite,hlock,hcount',kmalloc,copyFromUser,blockBytes,bind,Except.bind] at hw
    refine ⟨fun h => hbuf (hzero.mp h),?_⟩
    by_contra hstop
    simp only [not_or] at hstop
    rcases aesdWrite_scan hk fPos hcount hbuf hlock hcopy with herr | ⟨d,h,-,hscan⟩
    · exact halloc herr
    · rw [findChar_overrun hstop.1 hstop.2.1 hstop.2.2] at hscan
      simp [hw,Except.bind] at hscan
  · rintro ⟨hne,hstop⟩
    have hbuf : buf ≠ [] := fun h => hne (hzero.mpr h)
    obtain ⟨r,pos,k',tmp',es',hw,-,hres⟩ :=
      aesdWrite_spec hk env fPos hcount hbuf (fun _ => hstop) halloc
    simp only [hlock,hcopy,Bool.and_true,if_true] at hres
    have hle := (takeLine_isPrefix newline buf).length_le
    exact ⟨r,pos,k',hw,by omega,by omega,fun h => absurd h hne⟩

theorem twoLines_write : ∃ r pos k', aesdWrite grantingEnv twoLines [97,10,98] 3 7 = .ok (r,pos,k') ∧
    0 ≤ r ∧ r ≤ 3 := by
  obtain ⟨r,pos,k',hw,hpos,hle,-⟩ := (@write_bounded_iff twoLines
    twoLines_reachable grantingEnv [97,10,98] 3 7 rfl rfl rfl (by decide)
      (by decide)).mpr
      ⟨by decide,by decide⟩
  exact ⟨r,pos,k',hw,hpos,hle⟩

/-- The scan reads behind the pointer that a zero-length kmalloc returns. -/
theorem emptyWrite_faults : Reachable aesdInitModule ∧
    aesdWrite grantingEnv aesdInitModule [] 0 0 = .error .outOfBounds :=
  ⟨⟨boundedLlseek,[],[],start,by simp,rfl,rfl⟩,by decide⟩

/-! ## Refused allocations -/

def copyFails (env : WriteEnv) (k : Driver) (buf : List UInt8) (count : UInt64) : Bool :=
  env.lock && (copyAndKrealloc env k buf count = .ok (true,none))

/-- What retval is before anything else is stored in it; no path returns it. -/
def ENOMEM : ℤ := 12

def Refuses (env : WriteEnv) (k : Driver) (buf : List UInt8) (count : UInt64) (fPos : ℕ) (err : ℤ) : Prop :=
  ∃ pos k', aesdWrite env k buf count fPos = .ok (-err,pos,k') ∧ k'.dev = k.dev ∧
    k'.heap.bytes = k.heap.bytes

/-- Whichever service fails, the call refuses with the error of that failure. -/
def Atomic (env : WriteEnv) (k : Driver) (buf : List UInt8) (count : UInt64) (fPos : ℕ) : Prop :=
  (kmallocFails env k count = true → Refuses env k buf count fPos ENOMEM) ∧
  (copyFails env k buf count = true → Refuses env k buf count fPos EFAULT) ∧
  (kreallocFails env k buf count = true → Refuses env k buf count fPos ENOMEM)

theorem copyAndKrealloc_left {env : WriteEnv} {k : Driver} {buf : List UInt8} {count : UInt64}
    (hcopy : env.copy = true) (hcount : count.toNat = buf.length) :
    copyAndKrealloc env k buf count ≠ .ok (true,none) := by
  intro hleft
  rcases hkm : kmalloc k.heap count.toNat env.kmalloc env.junk with ⟨data,h⟩
  simp only [copyAndKrealloc,hkm,bind,Except.bind] at hleft
  rcases hcp : copyFromUser env.copy h data buf count.toNat with f | ⟨left,h'⟩
  · simp [hcp] at hleft
  cases left with
  | true =>
    simp only [copyFromUser,hcopy,hcount,le_refl,decide_true,Bool.and_self,if_true] at hcp
    repeat' split at hcp
    all_goals simp at hcp
  | false =>
    simp only [hcp,Bool.false_eq_true,if_false] at hleft
    repeat' split at hleft
    all_goals simp [pure,Except.pure] at hleft

/-- A write is atomic on failure exactly if neither allocation fails: a failed copy is
undone, and NULL is dereferenced. -/
theorem write_atomic_iff {k : Driver} (hk : Reachable k) (env : WriteEnv) {buf : List UInt8}
    {count : UInt64} (fPos : ℕ) (hcount : count.toNat = buf.length) :
    Atomic env k buf count fPos ↔
      kmallocFails env k count = false ∧ kreallocFails env k buf count = false := by
  obtain ⟨tmp,es,hk⟩ := hk.holds
  constructor
  · rintro ⟨hkmalloc,-,hkrealloc⟩
    refine ⟨Bool.eq_false_iff.mpr fun h => ?_,Bool.eq_false_iff.mpr fun h => ?_⟩
    · obtain ⟨pos,k',hw,-⟩ := hkmalloc h
      simp [aesdWrite_kmallocFails fPos h] at hw
    · obtain ⟨pos,k',hw,-⟩ := hkrealloc h
      simp [aesdWrite_kreallocFails fPos h] at hw
  · rintro ⟨hkmalloc,hkrealloc⟩
    refine ⟨by simp [hkmalloc],fun h => ?_,by simp [hkrealloc]⟩
    simp only [copyFails,Bool.and_eq_true,decide_eq_true_eq] at h
    obtain ⟨hlock,hleft⟩ := h
    have hbuf : buf ≠ [] := by
      rintro rfl
      have hzero : count.toNat = 0 := hcount
      simp [copyAndKrealloc,copyFromUser,hzero,kmalloc,blockBytes,bind,Except.bind] at hleft
    have hcopy : env.copy = false := by
      by_contra hcopy
      rw [Bool.not_eq_false] at hcopy
      exact copyAndKrealloc_left hcopy hcount hleft
    rcases aesdWrite_left hk env fPos hcount hbuf hlock hcopy with herr | ⟨h,hw,ho⟩
    · rw [aesdWrite_nullPtr_iff hk fPos hcount,hkmalloc,hkrealloc] at herr
      simp at herr
    · exact ⟨0,_,hw,rfl,ho.bytes_eq hk.owns⟩

theorem failedCopy_refused : copyFails { grantingEnv with copy := false } twoLines [97] 1 = true ∧
    Refuses { grantingEnv with copy := false } twoLines [97] 1 5 EFAULT := by
  have hcopy : copyFails { grantingEnv with copy := false } twoLines [97] 1 = true := by decide
  obtain ⟨-,hrefuses,-⟩ := (@write_atomic_iff twoLines twoLines_reachable
    { grantingEnv with copy := false } [97] 1 5 rfl).mpr ⟨by decide,by decide⟩
  exact ⟨hcopy,hrefuses hcopy⟩

/-- Either allocation is refused to a write of "a\n". -/
theorem refusedAllocations_fault : Reachable aesdInitModule ∧
    ¬ Atomic { grantingEnv with kmalloc := false } aesdInitModule [97,10] 2 0 ∧
    ¬ Atomic { grantingEnv with krealloc := false } aesdInitModule [97,10] 2 0 := by
  refine ⟨⟨boundedLlseek,[],[],start,by simp,rfl,rfl⟩,?_,?_⟩
  · rintro ⟨hkmalloc,-,-⟩
    have hfails : kmallocFails { grantingEnv with kmalloc := false } aesdInitModule 2 = true := by decide
    obtain ⟨pos,k',hw,-⟩ := hkmalloc hfails
    simp [aesdWrite_kmallocFails 0 hfails] at hw
  · rintro ⟨-,-,hkrealloc⟩
    have hfails : kreallocFails { grantingEnv with krealloc := false } aesdInitModule [97,10] 2 = true := by
      decide
    obtain ⟨pos,k',hw,-⟩ := hkrealloc hfails
    simp [aesdWrite_kreallocFails 0 hfails] at hw

end Aesd.CharDevice
