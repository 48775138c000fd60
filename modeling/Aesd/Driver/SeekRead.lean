import Aesd.Driver.StreamContract

/-! # Seeking and reading agree on the content

The limit of a seek is the running size that add_entry maintains, while a read finds
its place by walking the entries. Both measure the same concatenation, so every
accepted position is a position in it, and reading on from there yields the rest.
-/
namespace Aesd.CharDevice
open CircularBuffer Kernel Positions

/-- The position that a seek from the start or from the end asks for. -/
def seekTarget (offset whence size : ℤ) : ℤ := if whence = SEEK_SET then offset else size + offset

/-- fixed_size_llseek accepts exactly the resulting positions in [0,size], stores them
in f_pos and returns them. -/
def AcceptsPositions (fixedSizeLlseek : FixedSizeLlseek) : Prop :=
  ∀ (fPos : ℕ) (offset whence size : ℤ), whence = SEEK_SET ∨ whence = SEEK_END →
    if 0 ≤ seekTarget offset whence size ∧ seekTarget offset whence size ≤ size then
      fixedSizeLlseek fPos offset whence size =
        (seekTarget offset whence size,(seekTarget offset whence size).toNat)
    else (fixedSizeLlseek fPos offset whence size).1 < 0 ∧
      (fixedSizeLlseek fPos offset whence size).2 = fPos

/-- Reads from pos on, the i-th with its own count, until one returns zero; none when
n reads were not enough. -/
def readUntilZero (k : Driver) (counts : ℕ → UInt64) :
    ℕ → ℕ → ℕ → Except Fault (Option (List (List UInt8)))
  | 0, _, _ => .ok none
  | n+1, i, pos => do
    let (ret,data,pos) ← aesdRead ⟨true,true⟩ k (counts i) pos
    if ret = 0 then return some []
    else (readUntilZero k counts n (i+1) pos).map (Option.map (fun ps => data :: ps))

theorem Holds.size_toNat {k : Driver} {tmp : Option Block} {es : List Block} (hk : Holds k tmp es) :
    k.dev.circularBuffer.size.toNat = (contents k).flatten.length ∧
      (contents k).flatten.length ≤ kernelSpace := by
  have hfit := hk.owns.sum_le
  rw [List.map_append,List.sum_append] at hfit
  have hlen : (contents k).flatten.length = (es.map (fun b => b.2.length)).sum := by
    rw [hk.contents_eq,List.length_flatten,List.map_map]
    rfl
  have hle : (contents k).flatten.length ≤ kernelSpace :=
    hlen.le.trans ((Nat.le_add_left _ _).trans hfit)
  have hsum : ((live k.dev.circularBuffer).map (fun e => e.size.toNat)).sum =
      (contents k).flatten.length := by rw [hk.sizes_eq,List.length_flatten]
  refine ⟨?_,hle⟩
  rw [hk.ring.sizeEq,toNat_sum_size (hsum.trans_lt (hle.trans_lt (by decide))),hsum]

theorem Holds.length_contents {k : Driver} {tmp : Option Block} {es : List Block}
    (hk : Holds k tmp es) : (contents k).length ≤ 10 := by
  rw [contents,List.length_map]
  exact length_live_le hk.ring

/-- Reading until zero drains the content piece by piece, whatever the counts. -/
theorem readUntilZero_eq {k : Driver} {tmp : Option Block} {es : List Block} (hk : Holds k tmp es)
    (counts : ℕ → UInt64) (n i pos : ℕ) :
    readUntilZero k counts n i pos = .ok (drain (contents k) n pos) := by
  induction n generalizing i pos with
  | zero => rfl
  | succ n ih =>
    simp only [readUntilZero,drain,aesdRead_spec hk,Bool.true_eq_false,if_false,false_and,bind,
      Except.bind]
    by_cases hz : (readAt (contents k) pos).length = 0
    · rw [if_pos (by exact_mod_cast hz),if_pos hz]
      rfl
    · rw [if_neg (by exact_mod_cast hz),if_neg hz,ih]
      rfl

/-- A successful seek lands where it was told to, inside the content or at its end, and
reading on from there returns zero after at most ten reads that deliver exactly the rest. -/
theorem seek_then_read_rest {fixedSizeLlseek : FixedSizeLlseek}
    (haccept : AcceptsPositions fixedSizeLlseek) {k : Driver} (hk : Reachable k) {fPos pos : ℕ}
    {offset whence p : ℤ} (hwhence : whence = SEEK_SET ∨ whence = SEEK_END)
    (hseek : aesdLlseek fixedSizeLlseek true k fPos offset whence = (p,pos)) (hp : 0 ≤ p)
    (counts : ℕ → UInt64) (_ : ∀ i, ∀ line ∈ contents k, line.length ≤ (counts i).toNat) :
    p = seekTarget offset whence (contents k).flatten.length ∧
    p ≤ (contents k).flatten.length ∧ (pos : ℤ) = p ∧
    (∃ pieces, readUntilZero k counts 11 0 pos = .ok (some pieces) ∧ pieces.length ≤ 10 ∧
      (∀ piece ∈ pieces, piece ≠ []) ∧ pieces.flatten = (contents k).flatten.drop pos) ∧
    ((∃ data pos', aesdRead ⟨true,true⟩ k (counts 0) pos = .ok (0,data,pos')) ↔
      p = (contents k).flatten.length) := by
  obtain ⟨tmp,es,hk⟩ := hk.holds
  obtain ⟨hsize,hfit⟩ := hk.size_toNat
  have hbmod : Int.bmod k.dev.circularBuffer.size.toNat (2^64) = (contents k).flatten.length := by
    rw [hsize]
    exact Int.bmod_eq_of_le (by omega) (by simp only [kernelSpace] at hfit; omega)
  have hacc := haccept fPos offset whence (contents k).flatten.length hwhence
  simp only [aesdLlseek,Bool.not_true,Bool.false_eq_true,if_false,hbmod] at hseek
  simp only [hseek,Prod.mk.injEq] at hacc
  split at hacc
  case isFalse => exact absurd hp (not_le.mpr hacc.1)
  case isTrue hrange =>
    obtain ⟨hpt,hpos⟩ := hacc
    have hpp : (pos : ℤ) = p := by omega
    refine ⟨hpt,by omega,hpp,?_,?_⟩
    · rw [readUntilZero_eq hk]
      obtain ⟨pieces,hd,hlen,hne,hflat⟩ := drain_spec (contents k) 10 0 pos (by simp)
        (by have := hk.length_contents; omega)
      exact ⟨pieces,by rw [hd],hlen,hne,hflat⟩
    · have hnil := readAt_eq_nil_iff (contents k) pos
      rw [aesdRead_spec hk]
      simp only [Bool.true_eq_false,if_false,false_and,Except.ok.injEq,Prod.mk.injEq]
      constructor
      · rintro ⟨data,pos',hz,-,-⟩
        have := hnil.mp (List.length_eq_zero_iff.mp (by exact_mod_cast hz))
        omega
      · intro he
        have hz := hnil.mpr (by omega)
        exact ⟨_,_,by simp [hz],rfl,rfl⟩

/-- generic_file_llseek_size with the size as the upper limit of every position. -/
def boundedLlseek : FixedSizeLlseek := fun fPos offset whence size =>
  let target := if whence = SEEK_SET then offset else if whence = SEEK_END then size + offset
    else fPos + offset
  if 0 ≤ target ∧ target ≤ size then (target,target.toNat) else (-22,fPos)

theorem boundedLlseek_accepts : AcceptsPositions boundedLlseek := by
  rintro fPos offset whence size (rfl | rfl)
  · simp only [boundedLlseek,seekTarget,if_true]
    split <;> simp_all
  · simp only [boundedLlseek,seekTarget,show SEEK_END ≠ SEEK_SET by decide,if_false,if_true]
    split <;> simp_all

def twoLines : Driver :=
  match run boundedLlseek start [.write 0 grantingEnv [97,10] 2,.write 0 grantingEnv [98,99,10] 3] with
  | .ok (_,s) => s.driver
  | .error _ => aesdInitModule

theorem twoLines_reachable : Reachable twoLines := by
  refine ⟨boundedLlseek,[.write 0 grantingEnv [97,10] 2,.write 0 grantingEnv [98,99,10] 3],?_⟩
  cases h : run boundedLlseek start
      [.write 0 grantingEnv [97,10] 2,.write 0 grantingEnv [98,99,10] 3] with
  | error f =>
    have hne : ∀ f, run boundedLlseek start
        [.write 0 grantingEnv [97,10] 2,.write 0 grantingEnv [98,99,10] 3] ≠ .error f := by
      intro f
      cases f <;> decide
    exact absurd h (hne f)
  | ok v => exact ⟨v.1,v.2,by simp [Op.Sized],rfl,by simp [twoLines,h]⟩

theorem twoLines_contents : contents twoLines = [[97,10],[98,99,10]] := by decide

/-- Seeking two bytes back from the end lands inside the second line. -/
theorem twoLines_seek_back :
    contents twoLines = [[97,10],[98,99,10]] ∧
    ∃ pieces, readUntilZero twoLines (fun _ => 16) 11 0 3 = .ok (some pieces) ∧
      pieces.length ≤ 10 ∧ pieces.flatten = [99,10] := by
  have hcon := twoLines_contents
  obtain ⟨-,-,-,⟨pieces,hread,hlen,-,hflat⟩,-⟩ := @seek_then_read_rest _ boundedLlseek_accepts
    _ twoLines_reachable 0 3 (-2) _ 3 (Or.inr rfl)
    (by decide) (by decide) (fun _ => 16) (fun _ => by rw [hcon]; decide)
  exact ⟨hcon,pieces,hread,hlen,by rw [hflat,hcon]; decide⟩

end Aesd.CharDevice
