import Aesd.Driver.WriteSpec

/-! # The two allocations of a write

aesd_write checks neither what kmalloc nor what krealloc returns. NULL is written
through in both cases, and nothing else makes a write dereference it.
-/
namespace Aesd.CharDevice
open Blocks CircularBuffer Kernel Lines LineStore

def kmallocFails (env : WriteEnv) (k : Driver) (count : UInt64) : Bool :=
  env.lock && ((kmalloc k.heap count.toNat env.kmalloc env.junk).1 = .null)

/-- What copy_from_user and krealloc return to a write, as far as it calls them. -/
def copyAndKrealloc (env : WriteEnv) (k : Driver) (buf : List UInt8) (count : UInt64) :
    Except Fault (Bool × Option Ptr) := do
  let (data,h) := kmalloc k.heap count.toNat env.kmalloc env.junk
  let (left,h) ← copyFromUser env.copy h data buf count.toNat
  if left then return (true,none)
  else
    let mem ← blockBytes h data
    let found ← findChar (mem ++ env.tail) newline count.toNat
    let (tmpbuf,_) ← krealloc h k.dev.tmpbuf (k.dev.tmpbufSize + dataIndex count found + 1).toNat
      env.krealloc env.inPlace env.junk
    return (false,some tmpbuf)

def kreallocFails (env : WriteEnv) (k : Driver) (buf : List UInt8) (count : UInt64) : Bool :=
  env.lock && (copyAndKrealloc env k buf count = .ok (false,some .null))

theorem aesdWrite_kmallocFails {env : WriteEnv} {k : Driver} {buf : List UInt8} {count : UInt64}
    (fPos : ℕ) (h : kmallocFails env k count = true) :
    aesdWrite env k buf count fPos = .error .nullPtr := by
  simp only [kmallocFails,Bool.and_eq_true,decide_eq_true_eq] at h
  obtain ⟨hlock,hnull⟩ := h
  have hne : count.toNat ≠ 0 := by
    intro hzero
    simp [kmalloc,hzero] at hnull
  rcases hkm : kmalloc k.heap count.toNat env.kmalloc env.junk with ⟨data,h⟩
  obtain rfl : data = .null := by rw [hkm] at hnull; exact hnull
  simp [aesdWrite,hlock,hkm,copyFromUser,hne,bind,Except.bind]

theorem aesdWrite_kreallocFails {env : WriteEnv} {k : Driver} {buf : List UInt8} {count : UInt64}
    (fPos : ℕ) (h : kreallocFails env k buf count = true) :
    aesdWrite env k buf count fPos = .error .nullPtr := by
  simp only [kreallocFails,Bool.and_eq_true,decide_eq_true_eq] at h
  obtain ⟨hlock,hnull⟩ := h
  rcases hkm : kmalloc k.heap count.toNat env.kmalloc env.junk with ⟨data,h⟩
  simp only [copyAndKrealloc,hkm,bind,Except.bind] at hnull
  rcases hcp : copyFromUser env.copy h data buf count.toNat with f | ⟨left,h⟩
  · simp [hcp] at hnull
  cases left with
  | true => simp [hcp,pure,Except.pure] at hnull
  | false =>
    simp only [hcp,Bool.false_eq_true,if_false] at hnull
    rcases hmem : blockBytes h data with f | mem
    · simp only [hmem,reduceCtorEq] at hnull
    simp only [hmem] at hnull
    rcases hfound : findChar (mem ++ env.tail) newline count.toNat with f | found
    · simp only [hfound,reduceCtorEq] at hnull
    simp only [hfound] at hnull
    rcases hkr : krealloc h k.dev.tmpbuf (k.dev.tmpbufSize + dataIndex count found + 1).toNat
      env.krealloc env.inPlace env.junk with f | ⟨tmpbuf,h'⟩
    · simp only [hkr,reduceCtorEq] at hnull
    obtain rfl : tmpbuf = .null := by
      simp only [hkr,pure,Except.pure] at hnull
      simpa using hnull
    have hwrite : copyLine h' .null data (dataIndex count found) k.dev.tmpbufSize = .error .nullPtr := rfl
    simp only [aesdWrite,hlock,Bool.not_true,Bool.false_eq_true,if_false,hkm,hcp,hmem,hfound,storeData,
      hkr,hwrite,bind,Except.bind]

/-- Nothing but a refused allocation makes a write dereference NULL. -/
theorem aesdWrite_nullPtr_iff {k : Driver} {tmp : Option Block} {es : List Block} (hk : Holds k tmp es)
    {env : WriteEnv} {buf : List UInt8} {count : UInt64} (fPos : ℕ) (hcount : count.toNat = buf.length) :
    aesdWrite env k buf count fPos = .error .nullPtr ↔
      kmallocFails env k count = true ∨ kreallocFails env k buf count = true := by
  constructor
  · intro hnull
    have hlock : env.lock = true := by
      by_contra hlock
      rw [Bool.not_eq_true] at hlock
      simp [aesdWrite,hlock] at hnull
    have hbuf : buf ≠ [] := by
      rintro rfl
      have hzero : count.toNat = 0 := hcount
      simp [aesdWrite,hlock,hzero,kmalloc,copyFromUser,blockBytes,bind,Except.bind] at hnull
    have hne : count.toNat ≠ 0 := by
      rw [hcount]
      exact fun h => hbuf (List.length_eq_zero_iff.mp h)
    rcases kmalloc_owns hk.owns hne env.kmalloc env.junk with hkm | ⟨d,h₁,hkm,ho⟩
    · left
      simp [kmallocFails,hlock,hkm]
    · right
      have hcopy : env.copy = true := by
        by_contra hcopy
        rw [Bool.not_eq_true] at hcopy
        have hleft := copyFromUser_left buf ho (length_fresh _ _) hne
        obtain ⟨h₂,hfree,-⟩ := kfree_owns ho
        change kfree h₁ (.block d) = _ at hfree
        simp [aesdWrite,hlock,hkm,hcopy,hleft,hfree,bind,Except.bind,pure,Except.pure] at hnull
      obtain ⟨h₂,hdone,ho₂⟩ := copyFromUser_done ho (by simp [hcount] : _ = buf.length) (hcount ▸ hne)
      have hmem : blockBytes h₂ (.block d) = .ok buf := blockBytes_owns ho₂ (b := (d,buf)) (by simp)
      rw [← hcount] at hdone
      by_cases hstop : newline ∈ buf ∨ newline ∈ env.tail ∨ endOfStr ∈ env.tail
      · have hfound := findChar_spec hstop
        rw [← hcount] at hfound
        simp only [aesdWrite,hlock,Bool.not_true,Bool.false_eq_true,if_false,hkm,hcopy,hdone,hmem,
          hfound,bind,Except.bind] at hnull
        rcases storeData_spec hk env hbuf (dataIndex_spec hcount hbuf) ho₂ with
          ⟨hkr,-⟩ | ⟨k',tmp',es',hok,-⟩
        · simp only [kreallocFails,hlock,copyAndKrealloc,hkm,hcopy,hdone,hmem,hfound,hkr,bind,
            Except.bind,Bool.false_eq_true,if_false]
          rfl
        · simp [hok] at hnull
      · simp only [not_or] at hstop
        have hover := findChar_overrun hstop.1 hstop.2.1 hstop.2.2
        rw [← hcount] at hover
        simp [aesdWrite,hlock,hkm,hcopy,hdone,hmem,hover,bind,Except.bind] at hnull
  · rintro (h | h)
    · exact aesdWrite_kmallocFails fPos h
    · exact aesdWrite_kreallocFails fPos h

end Aesd.CharDevice
