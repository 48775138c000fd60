import Mathlib

/-! # C strings in blocks of bytes

The string functions of the C library on a block of memory of known length. A call
that would read or write outside of its block has no result.
-/
namespace Aesd.CString

def untilNul (bytes : List UInt8) : List UInt8 := bytes.takeWhile (fun b => b ≠ 0)

/-- The string that a block holds. -/
def cstr (block : List UInt8) : Option (List UInt8) :=
  if 0 ∈ block then some (untilNul block) else none

/-- At most n bytes of src, up to a NUL, and a terminator behind the string in dst. -/
def strncat (dst src : List UInt8) (n : ℕ) : Option (List UInt8) :=
  match cstr dst with
  | none => none
  | some d =>
    let s := untilNul (src.take n)
    -- the copy stops at a NUL, after n bytes, or by leaving src
    if src.length < n ∧ 0 ∉ src then none
    else if dst.length < d.length + s.length + 1 then none
    else some (d ++ s ++ 0 :: dst.drop (d.length + s.length + 1))

/-- The first position at which pat occurs in s. -/
def strstr (s pat : List UInt8) : Option ℕ :=
  (List.range (s.length + 1)).find? (fun i => pat.isPrefixOf (s.drop i))

def isSpace (b : UInt8) : Bool := b = 32 || (9 ≤ b && b ≤ 13)
def isDigit (b : UInt8) : Bool := 48 ≤ b && b ≤ 57

def decimal (ds : List UInt8) : ℕ := ds.foldl (fun v d => 10 * v + (d.toNat - 48)) 0

/-- strtoul in base ten for a 64-bit unsigned long: white space, a sign, digits. The
inner none is the value that does not fit and sets errno. -/
def strtoul (mem : List UInt8) : Option (Option UInt64) :=
  let s := mem.dropWhile isSpace
  let negative := s.head? = some 45
  let t := if negative ∨ s.head? = some 43 then s.tail else s
  let ds := t.takeWhile isDigit
  if ds.length = t.length then none
  else if decimal ds < 2^64 then
    some (some (if negative then 0 - UInt64.ofNat (decimal ds) else UInt64.ofNat (decimal ds)))
  else some none

theorem zero_notMem_untilNul (bytes : List UInt8) : 0 ∉ untilNul bytes := by
  intro h
  simpa using List.mem_takeWhile_imp h

theorem untilNul_of_notMem {bytes : List UInt8} (h : 0 ∉ bytes) : untilNul bytes = bytes := by
  rw [untilNul,List.takeWhile_eq_self_iff]
  intro b hb
  have hne : b ≠ 0 := ne_of_mem_of_not_mem hb h
  simpa using hne

theorem untilNul_append_zero {s : List UInt8} (hs : 0 ∉ s) (t : List UInt8) :
    untilNul (s ++ 0 :: t) = s := by
  have hpos : ∀ b ∈ s, (fun b : UInt8 => decide (b ≠ 0)) b = true := by
    intro b hb
    have hne : b ≠ 0 := ne_of_mem_of_not_mem hb hs
    simpa using hne
  rw [untilNul,List.takeWhile_append_of_pos hpos]
  simp

theorem untilNul_sublist (bytes : List UInt8) : (untilNul bytes).Sublist bytes := List.takeWhile_sublist _

theorem cstr_append_zero {s : List UInt8} (hs : 0 ∉ s) (t : List UInt8) :
    cstr (s ++ 0 :: t) = some s := by
  simp [cstr,untilNul_append_zero hs]

theorem exists_of_cstr {block s : List UInt8} (h : cstr block = some s) :
    0 ∉ s ∧ ∃ t, block = s ++ 0 :: t := by
  unfold cstr at h
  split at h
  case isFalse => simp at h
  case isTrue h0 =>
    obtain rfl := Option.some.inj h
    refine ⟨zero_notMem_untilNul block,?_⟩
    have hsplit := List.takeWhile_append_dropWhile (p := fun b : UInt8 => decide (b ≠ 0)) (l := block)
    cases hd : block.dropWhile (fun b : UInt8 => decide (b ≠ 0)) with
    | nil =>
      have hall := List.dropWhile_eq_nil_iff.mp hd
      simpa using hall 0 h0
    | cons b t =>
      have hb : b = 0 := by
        have hhead := List.head?_dropWhile_not (fun b : UInt8 => decide (b ≠ 0)) block
        rw [hd] at hhead
        simpa using hhead
      refine ⟨t,?_⟩
      rw [hd,hb] at hsplit
      exact hsplit.symm

theorem length_lt_of_cstr {block s : List UInt8} (h : cstr block = some s) : s.length < block.length := by
  obtain ⟨-,t,rfl⟩ := exists_of_cstr h
  simp

theorem cstr_strncat {dst src dst' : List UInt8} {n : ℕ} (h : strncat dst src n = some dst') :
    ∃ d, cstr dst = some d ∧ cstr dst' = some (d ++ untilNul (src.take n)) ∧
      dst'.length = dst.length := by
  unfold strncat at h
  cases hd : cstr dst with
  | none => simp [hd] at h
  | some d =>
    simp only [hd] at h
    split at h
    · simp at h
    · split at h
      · simp at h
      · rename_i hfit
        obtain rfl := Option.some.inj h
        refine ⟨d,rfl,?_,?_⟩
        · apply cstr_append_zero
          simp [(exists_of_cstr hd).1,zero_notMem_untilNul]
        · simp only [List.length_append,List.length_cons,List.length_drop]
          omega

theorem cstr_set_zero {block : List UInt8} (h : block ≠ []) : cstr (block.set 0 0) = some [] := by
  cases block with
  | nil => exact absurd rfl h
  | cons b t => exact cstr_append_zero (s := []) (by simp) t

theorem strstr_eq_none_iff {s pat : List UInt8} : strstr s pat = none ↔ ¬ pat <:+: s := by
  simp only [strstr,List.find?_eq_none,List.mem_range,List.isPrefixOf_iff_prefix]
  constructor
  · rintro h ⟨a,b,rfl⟩
    exact h a.length (by simp only [List.length_append]; omega) ⟨b,by simp⟩
  · intro h i _ hpre
    exact h (hpre.isInfix.trans (List.drop_suffix i s).isInfix)

theorem strstr_eq_some_iff {s pat : List UInt8} {i : ℕ} : strstr s pat = some i ↔
    pat <+: s.drop i ∧ i ≤ s.length ∧ ∀ j < i, ¬ pat <+: s.drop j := by
  simp only [strstr,List.find?_range_eq_some,List.isPrefixOf_iff_prefix,List.mem_range,
    Nat.lt_succ_iff,Bool.not_eq_eq_eq_not,Bool.not_true,← Bool.not_eq_true]

theorem strstr_append (pat t : List UInt8) : strstr (pat ++ t) pat = some 0 := by
  rw [strstr_eq_some_iff]
  exact ⟨List.prefix_append pat t,Nat.zero_le _,fun j hj => absurd hj (Nat.not_lt_zero j)⟩

end Aesd.CString
