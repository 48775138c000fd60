import Aesd.Foundation.CString

/-! # Decimal numerals as strtoul reads them -/
namespace Aesd.CString

def Numeral (ds : List UInt8) : Prop := ds ≠ [] ∧ ∀ d ∈ ds, isDigit d = true

def printDecimal (n : ℕ) : List UInt8 := (Nat.toDigits 10 n).map (fun c => UInt8.ofNat c.toNat)

/-- White space, a sign and digits, and the value of the digits is no unsigned long. -/
def OutOfRange (mem : List UInt8) : Prop :=
  ∃ space sign ds c rest, mem = space ++ (sign ++ (ds ++ c :: rest)) ∧
    (∀ b ∈ space, isSpace b = true) ∧ sign ∈ [[],[43],[45]] ∧ (∀ d ∈ ds, isDigit d = true) ∧
    isDigit c = false ∧ 2^64 ≤ decimal ds

theorem takeWhile_append_cons {p : UInt8 → Bool} {s t : List UInt8} {c : UInt8}
    (hs : ∀ b ∈ s, p b = true) (hc : p c = false) : (s ++ c :: t).takeWhile p = s := by
  rw [List.takeWhile_append_of_pos hs]
  simp [hc]

theorem digit_not_space {d : UInt8} (hd : isDigit d = true) : isSpace d = false := by
  simp only [isDigit,isSpace,Bool.and_eq_true,decide_eq_true_eq,UInt8.le_iff_toNat_le,
    Bool.or_eq_false_iff,decide_eq_false_iff_not,Bool.and_eq_false_iff] at *
  have h : (48 : UInt8).toNat = 48 := rfl
  refine ⟨fun h32 => ?_,.inr fun h13 => ?_⟩
  · subst h32
    simp at hd
  · have h' : (13 : UInt8).toNat = 13 := rfl
    omega

theorem strtoul_space {space : List UInt8} (h : ∀ b ∈ space, isSpace b = true) (mem : List UInt8) :
    strtoul (space ++ mem) = strtoul mem := by
  simp only [strtoul,List.dropWhile_append_of_pos h]

theorem strtoul_sign {sign ds rest : List UInt8} {c : UInt8} (hsign : sign ∈ [[],[43],[45]])
    (hds : Numeral ds) (hc : isDigit c = false) : strtoul (sign ++ (ds ++ c :: rest)) =
      if decimal ds < 2^64 then
        some (some (if sign = [45] then 0 - UInt64.ofNat (decimal ds) else UInt64.ofNat (decimal ds)))
      else some none := by
  obtain ⟨hne,hdig⟩ := hds
  have htake := takeWhile_append_cons (t := rest) hdig hc
  have hlen : ds.length ≠ (ds ++ c :: rest).length := by simp
  simp only [List.mem_cons,List.not_mem_nil,or_false] at hsign
  obtain rfl | rfl | rfl := hsign
  · obtain ⟨d,ds',rfl⟩ := List.exists_cons_of_ne_nil hne
    have hd := hdig d (by simp)
    have hspace := digit_not_space hd
    have h43 : d ≠ 43 := by rintro rfl; simp [isDigit] at hd
    have h45 : d ≠ 45 := by rintro rfl; simp [isDigit] at hd
    have hdrop : (d :: ds' ++ c :: rest).dropWhile isSpace = d :: ds' ++ c :: rest := by simp [hspace]
    simp only [strtoul,List.nil_append,hdrop,List.cons_append,List.head?_cons,Option.some.injEq,h43,h45,
      or_self,if_false] at *
    rw [htake,if_neg hlen]
    simp
  · have hdrop : ([43] ++ (ds ++ c :: rest)).dropWhile isSpace = 43 :: (ds ++ c :: rest) := rfl
    simp only [strtoul,hdrop,List.head?_cons,Option.some.injEq,List.tail_cons]
    simp [htake]
  · have hdrop : ([45] ++ (ds ++ c :: rest)).dropWhile isSpace = 45 :: (ds ++ c :: rest) := rfl
    simp only [strtoul,hdrop,List.head?_cons,Option.some.injEq,List.tail_cons]
    simp [htake]

theorem strtoul_digits {ds rest : List UInt8} {c : UInt8} (hds : Numeral ds) (hc : isDigit c = false)
    (hfit : decimal ds < 2^64) : strtoul (ds ++ c :: rest) = some (some (UInt64.ofNat (decimal ds))) := by
  have h : strtoul ([] ++ (ds ++ c :: rest)) = _ := strtoul_sign (by simp) hds hc
  rw [if_pos hfit] at h
  simpa using h

theorem strtoul_eq_range_iff {mem : List UInt8} : strtoul mem = some none ↔ OutOfRange mem := by
  constructor
  · intro h
    have hspaces : ∀ b ∈ mem.takeWhile isSpace, isSpace b = true :=
      fun b hb => List.mem_takeWhile_imp hb
    have hmem := List.takeWhile_append_dropWhile (p := isSpace) (l := mem)
    set s := mem.dropWhile isSpace with hs
    have hsign : ∃ sign ∈ [[],[43],[(45 : UInt8)]],
        s = sign ++ (if s.head? = some 45 ∨ s.head? = some 43 then s.tail else s) := by
      cases s with
      | nil => exact ⟨[],by simp,by simp⟩
      | cons b s' =>
        by_cases h45 : b = 45
        · exact ⟨[45],by simp,by simp [h45]⟩
        · by_cases h43 : b = 43
          · exact ⟨[43],by simp,by simp [h43]⟩
          · exact ⟨[],by simp,by simp [h45,h43]⟩
    obtain ⟨sign,hmemsign,heq⟩ := hsign
    simp only [strtoul,← hs] at h
    set t := if s.head? = some 45 ∨ s.head? = some 43 then s.tail else s with ht
    split at h
    · simp at h
    rename_i hlen
    split at h
    · simp at h
    rename_i hfit
    have hsplit := List.takeWhile_append_dropWhile (p := isDigit) (l := t)
    cases hd : t.dropWhile isDigit with
    | nil =>
      rw [hd,List.append_nil] at hsplit
      rw [hsplit] at hlen
      exact absurd rfl hlen
    | cons c rest =>
      have hc : isDigit c = false := by
        have hhead := List.head?_dropWhile_not isDigit t
        rw [hd] at hhead
        simpa using hhead
      refine ⟨mem.takeWhile isSpace,sign,t.takeWhile isDigit,c,rest,?_,hspaces,hmemsign,
        fun d hd => List.mem_takeWhile_imp hd,hc,by omega⟩
      rw [← hd,hsplit,← heq,hmem]
  · rintro ⟨space,sign,ds,c,rest,rfl,hspace,hsign,hds,hc,hbig⟩
    have hne : ds ≠ [] := by rintro rfl; simp [decimal] at hbig
    rw [strtoul_space hspace,strtoul_sign hsign ⟨hne,hds⟩ hc,if_neg (by omega)]

/-- Memory that ends the string with a NUL ends the conversion. -/
theorem strtoul_ne_none {mem : List UInt8} (h : 0 ∈ mem) : strtoul mem ≠ none := by
  have hs : 0 ∈ mem.dropWhile isSpace := by
    rw [← List.takeWhile_append_dropWhile (p := isSpace) (l := mem),List.mem_append] at h
    refine h.resolve_left fun h0 => ?_
    have hspace : isSpace 0 = true := List.mem_takeWhile_imp h0
    simp [isSpace] at hspace
  simp only [strtoul]
  set s := mem.dropWhile isSpace
  set t := if s.head? = some 45 ∨ s.head? = some 43 then s.tail else s with hdef
  have ht : 0 ∈ t := by
    rw [hdef]
    split
    · rename_i hhead
      cases hs' : s with
      | nil => simp [hs'] at hs
      | cons b s' =>
        rw [hs'] at hs hhead
        have hb : b ≠ 0 := by rintro rfl; simp at hhead
        simpa [hb.symm] using hs
    · exact hs
  rw [if_neg]
  · split <;> simp
  · intro hlen
    rw [← (List.takeWhile_prefix isDigit).eq_of_length hlen] at ht
    have hdig : isDigit 0 = true := List.mem_takeWhile_imp ht
    simp [isDigit] at hdig

theorem decimal_zeros (k : ℕ) (ds : List UInt8) : decimal (List.replicate k 48 ++ ds) = decimal ds := by
  induction k with
  | zero => simp
  | succ k ih => simpa [List.replicate_succ,decimal] using ih

theorem toNat_of_isDigit {c : Char} (h : c.isDigit = true) : (UInt8.ofNat c.toNat).toNat = c.toNat := by
  obtain ⟨-,h9⟩ := Char.isDigit_iff_toNat.mp h
  have h57 : '9'.toNat = 57 := rfl
  rw [UInt8.toNat_ofNat']
  omega

theorem printDecimal_numeral (n : ℕ) : Numeral (printDecimal n) := by
  constructor
  · simp [printDecimal,Nat.toDigits_ne_nil]
  · simp only [printDecimal,List.mem_map]
    rintro d ⟨c,hc,rfl⟩
    have hdig := Nat.isDigit_of_mem_toDigits (by decide) (by decide) hc
    have h := Char.isDigit_iff_toNat.mp hdig
    simp only [isDigit,Bool.and_eq_true,decide_eq_true_eq,UInt8.le_iff_toNat_le,toNat_of_isDigit hdig]
    exact ⟨h.1,h.2⟩

theorem decimal_printDecimal (n : ℕ) : decimal (printDecimal n) = n := by
  have h : ∀ (cs : List Char) (v : ℕ), (∀ c ∈ cs, c.isDigit = true) →
      (cs.map (fun c => UInt8.ofNat c.toNat)).foldl (fun v d => 10 * v + (d.toNat - 48)) v =
        Nat.ofDigitChars 10 cs v := by
    intro cs
    induction cs with
    | nil => simp
    | cons c cs ih =>
      intro v hcs
      have hc := toNat_of_isDigit (hcs c (by simp))
      simp only [List.map_cons,List.foldl_cons,Nat.ofDigitChars_cons,hc]
      exact ih _ (fun c' hc' => hcs c' (by simp [hc']))
  rw [decimal,printDecimal,h _ _ (fun c hc => Nat.isDigit_of_mem_toDigits (by decide) (by decide) hc),
    Nat.ofDigitChars_ten_toDigits]

end Aesd.CString
