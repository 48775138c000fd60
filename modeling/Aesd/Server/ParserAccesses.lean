import Aesd.Server.SeekCommand

/-! # The memory that parse_seekto_cmd touches

The accesses of one call in their order, with locals that may still be unset. A call whose
accesses are all allowed computes what the list says that it copies out.
-/
namespace Aesd.Server
open CharDevice Kernel CString

inductive Access where
  | readBuf (i : ℕ)
  | writeDigit (j : ℕ)
  /-- strtoul or strlen on the array. -/
  | useDigits (digits : List UInt8)
  /-- The two assignments to *seekto; none for a local that is not set. -/
  | copySeekto (x y : Option UInt32)
  deriving DecidableEq

def Access.Allowed (size : ℕ) : Access → Prop
  | .readBuf i => i ≤ size
  | .writeDigit j => j < digitsSize
  | .useDigits digits => 0 ∈ digits
  | .copySeekto x y => x.isSome ∧ y.isSome

def AllAllowed (size : ℕ) (accesses : List Access) : Prop := ∀ a ∈ accesses, a.Allowed size

/-- The accesses behind the loop. -/
def endAccesses (x : Option UInt32) (digits : List UInt8) : List Access :=
  .useDigits digits :: match cstr digits with
    | none => []
    | some [] => [.copySeekto x none]
    | some _ => .useDigits digits :: match strtoul digits with
      | some (some y) => [.copySeekto x (some (UInt32.ofNat y.toNat))]
      | _ => []

/-- The accesses of n iterations from index i on and of what follows them. -/
def scanAccesses (buf : List UInt8) (pos : ℕ) :
    ℕ → ℕ → Bool → ℕ → Option UInt32 → List UInt8 → List Access
  | 0, _, _, _, x, digits => endAccesses x digits
  | n+1, i, seenComma, j, x, digits => .readBuf (pos + i) :: match buf[pos+i]? with
    | none => []
    | some b =>
      if !seenComma ∧ b = comma then
        .useDigits digits :: match strtoul digits with
          | some (some x) => scanAccesses buf pos n (i+1) true 0 (some (UInt32.ofNat x.toNat))
              (List.replicate digitsSize 0)
          | _ => []
      else .writeDigit j ::
        -- a write behind the array has no defined successor
        if j < digitsSize then scanAccesses buf pos n (i+1) seenComma (j+1) x (digits.set j b) else []

/-- The accesses of parse_seekto_cmd on a block. strstr reads the string and its NUL. -/
def accesses (buf : List UInt8) (size : ℕ) : List Access :=
  match cstr buf with
  | none => [.readBuf buf.length]
  | some s => (List.range (s.length + 1)).map .readBuf ++ match strstr s matchCmd with
    | none => []
    | some pos => scanAccesses buf pos (size - matchCmd.length) matchCmd.length false 0 none
        (List.replicate digitsSize 0)

def copied (accesses : List Access) : Option AesdSeekto :=
  accesses.findSome? (fun a => match a with
    | .copySeekto (some x) (some y) => some ⟨x,y⟩
    | _ => none)

@[simp] theorem copied_readBuf (i : ℕ) (as : List Access) : copied (.readBuf i :: as) = copied as := rfl
@[simp] theorem copied_writeDigit (j : ℕ) (as : List Access) : copied (.writeDigit j :: as) = copied as := rfl
@[simp] theorem copied_useDigits (ds : List UInt8) (as : List Access) :
    copied (.useDigits ds :: as) = copied as := rfl

section
variable {size : ℕ}

theorem allAllowed_nil : AllAllowed size [] := by simp [AllAllowed]

theorem allAllowed_cons {a : Access} {as : List Access} :
    AllAllowed size (a :: as) ↔ a.Allowed size ∧ AllAllowed size as := by
  simp [AllAllowed]

theorem allAllowed_append {as bs : List Access} :
    AllAllowed size (as ++ bs) ↔ AllAllowed size as ∧ AllAllowed size bs := by
  simp only [AllAllowed,List.mem_append,or_imp,forall_and]

theorem allAllowed_strstr {s : List UInt8} (h : s.length ≤ size) :
    AllAllowed size ((List.range (s.length + 1)).map .readBuf) := by
  intro a ha
  obtain ⟨i,hi,rfl⟩ := List.mem_map.mp ha
  rw [List.mem_range] at hi
  simp only [Access.Allowed]
  omega

/-! ## The accesses and the function -/

theorem copied_end {x : UInt32} {xo : Option UInt32} {digits : List UInt8} {c : Bool} {j : ℕ}
    (y : UInt32) (hx : ∀ v, xo = some v → x = v) (h : AllAllowed size (endAccesses xo digits)) :
    afterLoop y ⟨c,j,x,digits⟩ = .ok (copied (endAccesses xo digits)) := by
  have h0 : 0 ∈ digits := (allAllowed_cons.mp h).1
  obtain ⟨s,hs⟩ : ∃ s, cstr digits = some s := ⟨_,if_pos h0⟩
  simp only [endAccesses,hs,afterLoop,inBounds,bind,Except.bind,pure,Except.pure] at h ⊢
  cases s with
  | nil => simp [allAllowed_cons,Access.Allowed] at h
  | cons b s =>
    cases hnum : strtoul digits with
    | none => exact absurd hnum (strtoul_ne_none h0)
    | some r =>
      cases r with
      | none => simp [copied]
      | some v =>
        simp only [hnum,allAllowed_cons,Access.Allowed] at h
        obtain ⟨-,-,⟨hsome,-⟩,-⟩ := h
        obtain ⟨w,rfl⟩ := Option.isSome_iff_exists.mp hsome
        simp [copied,hx w rfl]

theorem copied_scan {buf digits : List UInt8} {pos n i j : ℕ} {c : Bool} {x : UInt32}
    {xo : Option UInt32} (y : UInt32) (hsize : size < buf.length) (hx : ∀ v, xo = some v → x = v)
    (h : AllAllowed size (scanAccesses buf pos n i c j xo digits)) :
    (scanLoop (buf.drop pos) n i ⟨c,j,x,digits⟩).bind (fun r => match r with
        | none => .ok none
        | some st => afterLoop y st) =
      .ok (copied (scanAccesses buf pos n i c j xo digits)) := by
  induction n generalizing i c j x xo digits with
  | zero => exact copied_end y hx h
  | succ n ih =>
    cases hb : buf[pos+i]? with
    | none =>
      have hout := List.getElem?_eq_none_iff.mp hb
      have hin : pos + i ≤ size := (allAllowed_cons.mp h).1
      omega
    | some b =>
      have hcmd : (buf.drop pos)[i]? = some b := by rw [List.getElem?_drop,hb]
      simp only [scanAccesses,hb,allAllowed_cons] at h
      simp only [scanAccesses,hb,copied_readBuf]
      by_cases hcomma : (!c) = true ∧ b = comma
      · obtain ⟨hc,rfl⟩ := hcomma
        obtain rfl : c = false := by simpa using hc
        simp only [hc,and_self,if_true,allAllowed_cons,Access.Allowed] at h
        rw [scanLoop_comma hcmd]
        simp only [hc,and_self,if_true,copied_useDigits]
        cases hnum : strtoul digits with
        | none => exact absurd hnum (strtoul_ne_none h.2.1)
        | some r =>
          cases r with
          | none => rfl
          | some v =>
            simp only [hnum] at h
            refine ih ?_ h.2.2
            simp
      · rw [if_neg hcomma] at h ⊢
        have hcb : c = true ∨ b ≠ comma := by
          cases c with
          | true => exact .inl rfl
          | false => exact .inr (fun hb => hcomma ⟨rfl,hb⟩)
        simp only [allAllowed_cons,Access.Allowed] at h
        obtain ⟨-,hj,h⟩ := h
        rw [if_pos hj] at h ⊢
        rw [scanLoop_digit hcmd hcb hj,copied_writeDigit]
        exact ih hx h

/-- With allowed accesses only, the call returns, and what it stores does not depend on
what x and y held before. -/
theorem parse_eq_copied {buf line : List UInt8} (hline : cstr buf = some line)
    (h : AllAllowed line.length (accesses buf line.length)) (x y : UInt32) :
    parseSeektoCmd x y buf line.length = .ok (copied (accesses buf line.length)) := by
  have hstrstr : ∀ as, copied ((List.range (line.length + 1)).map .readBuf ++ as) = copied as := by
    intro as
    rw [copied,List.findSome?_append,List.findSome?_eq_none_iff.mpr]
    · rfl
    · intro a ha
      obtain ⟨i,-,rfl⟩ := List.mem_map.mp ha
      rfl
  simp only [accesses,hline,allAllowed_append] at h
  simp only [accesses,hline,hstrstr]
  cases hpos : strstr line matchCmd with
  | none =>
    simp [parseSeektoCmd,hline,hpos,inBounds,bind,Except.bind,pure,Except.pure,copied]
  | some pos =>
    simp only [hpos] at h
    rw [parse_eq_loop hline hpos]
    apply copied_scan y (length_lt_of_cstr hline) _ h.2
    simp

/-! ## When all of them are allowed -/

theorem allAllowed_digits {buf bs rest : List UInt8} {pos n i : ℕ} {c : Bool} {x : Option UInt32}
    (pre : List UInt8) (hbuf : buf.drop (pos + i) = bs ++ rest) (hc : c = true ∨ comma ∉ bs)
    (hread : pos + i + bs.length ≤ size + 1) (hpre : pre.length ≤ digitsSize) :
    AllAllowed size (scanAccesses buf pos (bs.length + n) i c pre.length x (padded pre)) ↔
      pre.length + bs.length ≤ digitsSize ∧
      AllAllowed size (scanAccesses buf pos n (i + bs.length) c (pre ++ bs).length x (padded (pre ++ bs))) := by
  induction bs generalizing i pre with
  | nil => simp [hpre]
  | cons b bs ih =>
    simp only [List.length_cons] at hread
    have hb : buf[pos+i]? = some b := getElem?_of_drop hbuf
    have hcb : ¬ ((!c) = true ∧ b = comma) := by
      rintro ⟨hc0,rfl⟩
      obtain rfl | hne := hc
      · simp at hc0
      · simp at hne
    have hcbs : c = true ∨ comma ∉ bs := hc.imp_right (fun h h' => h (by simp [h']))
    rw [List.length_cons,show bs.length + 1 + n = bs.length + n + 1 by omega,scanAccesses,hb]
    simp only [if_neg hcb,allAllowed_cons,Access.Allowed]
    by_cases hj : pre.length < digitsSize
    · have hdrop : buf.drop (pos + (i + 1)) = bs ++ rest := drop_succ_of_drop (i := pos + i) hbuf
      have hrest := ih (pre ++ [b]) hdrop hcbs (by omega) (by simp; omega)
      simp only [List.length_append,List.length_cons,List.length_nil,List.append_assoc,
        List.cons_append,List.nil_append] at hrest ⊢
      rw [if_pos hj,padded_set hj,hrest,show i + (bs.length + 1) = i + 1 + bs.length by omega]
      constructor
      · rintro ⟨-,-,hlen,h⟩
        exact ⟨by omega,h⟩
      · rintro ⟨hlen,h⟩
        exact ⟨by omega,hj,by omega,h⟩
    · simp only [hj,false_and,and_false,false_iff]
      rintro ⟨hlen,-⟩
      omega

theorem allAllowed_comma {buf digits : List UInt8} {pos n i j : ℕ} {x : Option UInt32}
    (hb : buf[pos+i]? = some comma) (hread : pos + i ≤ size) :
    AllAllowed size (scanAccesses buf pos (n+1) i false j x digits) ↔
      0 ∈ digits ∧ ∀ v, strtoul digits = some (some v) →
        AllAllowed size (scanAccesses buf pos n (i+1) true 0 (some (UInt32.ofNat v.toNat)) (padded [])) := by
  rw [scanAccesses,hb]
  simp only [Bool.not_false,and_self,if_true,allAllowed_cons,Access.Allowed,hread,true_and]
  apply and_congr_right
  intro h0
  cases hnum : strtoul digits with
  | none => exact absurd hnum (strtoul_ne_none h0)
  | some r => cases r <;> simp [allAllowed_nil,padded_nil]

theorem allAllowed_end {b : List UInt8} {x : Option UInt32} (hlen : b.length < digitsSize) (h0 : 0 ∉ b) :
    AllAllowed size (endAccesses x (padded b)) ↔
      b ≠ [] ∧ (OutOfRange (padded b) ∨ x.isSome) := by
  have hmem : 0 ∈ padded b := zero_mem_padded_iff.mpr (.inl hlen)
  rw [endAccesses,cstr_padded hlen h0,← strtoul_eq_range_iff]
  cases b with
  | nil => simp [allAllowed_cons,Access.Allowed]
  | cons d ds =>
    cases hnum : strtoul (padded (d :: ds)) with
    | none => exact absurd hnum (strtoul_ne_none hmem)
    | some r => cases r <;> simp [allAllowed_cons,allAllowed_nil,Access.Allowed,hmem]

theorem padded_set_zero {b : List UInt8} (h : b.length < digitsSize) :
    (padded b).set b.length 0 = padded b := by
  rw [padded_of_lt h,List.set_append_right _ _ le_rfl]
  simp

/-- The iterations behind the end of the line, one for each byte in front of the command:
the first one reads the NUL, a second one would read behind it. -/
theorem allAllowed_behind {buf b rest : List UInt8} {pos i : ℕ} {c : Bool} {x : Option UInt32}
    (hbuf : buf.drop (pos + i) = 0 :: rest) (hi : pos + i = size) (hb0 : 0 ∉ b) :
    AllAllowed size (scanAccesses buf pos pos i c b.length x (padded b)) ↔
      pos ≤ 1 ∧ b.length < digitsSize ∧ AllAllowed size (endAccesses x (padded b)) := by
  have hget : buf[pos+i]? = some 0 := getElem?_of_drop hbuf
  have hif : ¬ ((!c) = true ∧ (0 : UInt8) = comma) := fun h => by simp [comma] at h
  match pos with
  | 0 =>
    rw [scanAccesses]
    constructor
    · intro h
      have hmem : 0 ∈ padded b := (allAllowed_cons.mp h).1
      exact ⟨by omega,(zero_mem_padded_iff.mp hmem).resolve_right hb0,h⟩
    · exact fun h => h.2.2
  | 1 =>
    rw [scanAccesses,hget]
    simp only [if_neg hif,allAllowed_cons,Access.Allowed,hi,le_rfl,true_and]
    apply and_congr_right
    intro hj
    rw [if_pos hj,padded_set_zero hj,scanAccesses]
  | k+2 =>
    constructor
    · intro h
      rw [scanAccesses,hget] at h
      simp only [if_neg hif,allAllowed_cons,Access.Allowed] at h
      obtain ⟨-,hj,h⟩ := h
      rw [if_pos hj,scanAccesses] at h
      have hover : k + 2 + (i + 1) ≤ size := (allAllowed_cons.mp h).1
      omega
    · rintro ⟨hpos,-⟩
      omega

end

/-- Lines on which the parser stays inside its arrays and uses no unset local. -/
inductive SafeLine (line : List UInt8) : Prop
  | absent (h : ¬ matchCmd <:+: line)
  | refused (u a b : List UInt8) (hline : line = u ++ (matchCmd ++ (a ++ comma :: b)))
      (hpos : strstr line matchCmd = some u.length) (ha : comma ∉ a) (hlen : a.length < digitsSize)
      (hrange : OutOfRange (padded a))
  | two (u a b : List UInt8) (hline : line = u ++ (matchCmd ++ (a ++ comma :: b)))
      (hpos : strstr line matchCmd = some u.length) (hu : u.length ≤ 1) (ha : comma ∉ a)
      (hlen : a.length < digitsSize) (hb : b ≠ []) (hlenb : b.length < digitsSize)
  | only (u t : List UInt8) (hline : line = u ++ (matchCmd ++ t))
      (hpos : strstr line matchCmd = some u.length) (hu : u.length ≤ 1) (ht : comma ∉ t)
      (hlen : t.length < digitsSize) (hrange : OutOfRange (padded t))

theorem split_of_strstr {line : List UInt8} {pos : ℕ} (hpos : strstr line matchCmd = some pos) :
    ∃ u t, line = u ++ (matchCmd ++ t) ∧ u.length = pos := by
  obtain ⟨⟨t,ht⟩,hle,-⟩ := strstr_eq_some_iff.mp hpos
  refine ⟨line.take pos,t,?_,by simp [hle]⟩
  rw [ht,List.take_append_drop]

theorem accesses_allowed_iff {buf line : List UInt8} (hline : cstr buf = some line) :
    AllAllowed line.length (accesses buf line.length) ↔ match strstr line matchCmd with
      | none => True
      | some pos => AllAllowed line.length (scanAccesses buf pos (line.length - matchCmd.length)
          matchCmd.length false 0 none (padded [])) := by
  simp only [accesses,hline,allAllowed_append,allAllowed_strstr le_rfl,true_and,padded_nil]
  cases strstr line matchCmd with
  | none => simp [allAllowed_nil]
  | some pos => rfl

theorem allAllowed_last {buf b rest : List UInt8} {pos i size : ℕ} {c : Bool} {x : Option UInt32}
    (hbuf : buf.drop (pos + i) = b ++ 0 :: rest) (hc : c = true ∨ comma ∉ b)
    (hi : pos + i + b.length = size) (hb0 : 0 ∉ b) :
    AllAllowed size (scanAccesses buf pos (b.length + pos) i c 0 x (padded [])) ↔
      pos ≤ 1 ∧ b.length < digitsSize ∧ b ≠ [] ∧ (OutOfRange (padded b) ∨ x.isSome) := by
  have hread : pos + i + b.length ≤ size + 1 := by omega
  have hdigits := allAllowed_digits (n := pos) (x := x) [] hbuf hc hread (Nat.zero_le _)
  have hdrop : buf.drop (pos + (i + b.length)) = 0 :: rest := by
    rw [← Nat.add_assoc,← List.drop_drop,hbuf,List.drop_left]
  have hend : pos + (i + b.length) = size := by omega
  have hbehind := allAllowed_behind (c := c) (x := x) hdrop hend hb0
  simp only [List.length_nil,List.nil_append,Nat.zero_add] at hdigits
  rw [hdigits,hbehind]
  constructor
  · rintro ⟨-,hpos,hlen,hend⟩
    exact ⟨hpos,hlen,(allAllowed_end hlen hb0).mp hend⟩
  · rintro ⟨hpos,hlen,hend⟩
    exact ⟨by omega,hpos,hlen,(allAllowed_end hlen hb0).mpr hend⟩

theorem scan_allowed_of_comma {u a b r : List UInt8} {size : ℕ}
    (hsize : size = (u ++ (matchCmd ++ (a ++ comma :: b))).length) (ha : comma ∉ a)
    (ha0 : 0 ∉ a) (hb0 : 0 ∉ b) :
    AllAllowed size (scanAccesses (u ++ (matchCmd ++ (a ++ comma :: b)) ++ 0 :: r) u.length
        (size - matchCmd.length) matchCmd.length false 0 none (padded [])) ↔
      a.length < digitsSize ∧ (OutOfRange (padded a) ∨
        u.length ≤ 1 ∧ b ≠ [] ∧ b.length < digitsSize) := by
  set buf := u ++ (matchCmd ++ (a ++ comma :: b)) ++ 0 :: r with hbuf
  simp only [List.length_append,List.length_cons] at hsize
  have hdrop : buf.drop (u.length + matchCmd.length) = a ++ comma :: (b ++ 0 :: r) := by
    rw [hbuf,← List.drop_drop]
    simp
  have hdrop' : buf.drop (u.length + (matchCmd.length + a.length)) = comma :: (b ++ 0 :: r) := by
    rw [← Nat.add_assoc,← List.drop_drop,hdrop,List.drop_left]
  have hread : u.length + matchCmd.length + a.length ≤ size + 1 := by omega
  have hdigits := allAllowed_digits (n := b.length + u.length + 1) (c := false) (x := none) [] hdrop
    (.inr ha) hread (Nat.zero_le _)
  have hatComma : u.length + (matchCmd.length + a.length) ≤ size := by omega
  have hcomma := fun x digits => @allAllowed_comma size _ digits _ (b.length + u.length) _ a.length x
    (getElem?_of_drop hdrop') hatComma
  have hlast : ∀ v, AllAllowed size (scanAccesses buf u.length (b.length + u.length)
      (matchCmd.length + a.length + 1) true 0 (some v) (padded [])) ↔
      u.length ≤ 1 ∧ b.length < digitsSize ∧ b ≠ [] := by
    intro v
    have hsecond : buf.drop (u.length + (matchCmd.length + a.length + 1)) = b ++ 0 :: r :=
      drop_succ_of_drop hdrop'
    have hend : u.length + (matchCmd.length + a.length + 1) + b.length = size := by omega
    have h := allAllowed_last (c := true) (x := some v) hsecond (.inl rfl) hend hb0
    simpa using h
  simp only [List.length_nil,List.nil_append,Nat.zero_add] at hdigits
  rw [show size - matchCmd.length = a.length + (b.length + u.length + 1) by omega,hdigits,hcomma,
    zero_mem_padded_iff]
  simp only [hlast,← strtoul_eq_range_iff]
  constructor
  · rintro ⟨-,h0,h⟩
    have hlen := h0.resolve_right ha0
    refine ⟨hlen,?_⟩
    cases hnum : strtoul (padded a) with
    | none => exact absurd hnum (strtoul_ne_none (zero_mem_padded_iff.mpr (.inl hlen)))
    | some r =>
      cases r with
      | none => exact .inl rfl
      | some v =>
        obtain ⟨hu,hlenb,hne⟩ := h v hnum
        exact .inr ⟨hu,hne,hlenb⟩
  · rintro ⟨hlen,h⟩
    refine ⟨by omega,.inl hlen,?_⟩
    intro v hv
    obtain hrange | ⟨hu,hne,hlenb⟩ := h
    · simp [hrange] at hv
    · exact ⟨hu,hlenb,hne⟩

theorem scan_allowed_of_noComma {u t r : List UInt8} {size : ℕ}
    (hsize : size = (u ++ (matchCmd ++ t)).length) (ht : comma ∉ t) (ht0 : 0 ∉ t) :
    AllAllowed size (scanAccesses (u ++ (matchCmd ++ t) ++ 0 :: r) u.length
        (size - matchCmd.length) matchCmd.length false 0 none (padded [])) ↔
      u.length ≤ 1 ∧ t.length < digitsSize ∧ OutOfRange (padded t) := by
  have hdrop : (u ++ (matchCmd ++ t) ++ 0 :: r).drop (u.length + matchCmd.length) = t ++ 0 :: r := by
    rw [← List.drop_drop]
    simp
  simp only [List.length_append] at hsize
  have hend : u.length + matchCmd.length + t.length = size := by omega
  have hlast := allAllowed_last (c := false) (x := none) hdrop (.inr ht) hend ht0
  rw [show size - matchCmd.length = t.length + u.length by omega,hlast]
  simp only [Option.isSome_none,Bool.false_eq_true,or_false]
  constructor
  · rintro ⟨hu,hlen,-,hrange⟩
    exact ⟨hu,hlen,hrange⟩
  · rintro ⟨hu,hlen,hrange⟩
    refine ⟨hu,hlen,?_,hrange⟩
    rintro rfl
    have hzero : strtoul (padded []) ≠ some none := by
      rw [padded_of_lt (by simpa using hlen)]
      simp [strtoul,isSpace,isDigit,decimal]
    exact hzero (strtoul_eq_range_iff.mpr hrange)

/-- A call stays inside its arrays and copies out no unset local exactly for safe lines. -/
theorem parser_safe_iff (buf line : List UInt8) (hline : cstr buf = some line) :
    AllAllowed line.length (accesses buf line.length) ↔ SafeLine line := by
  obtain ⟨h0,r,rfl⟩ := exists_of_cstr hline
  rw [accesses_allowed_iff hline]
  constructor
  · intro h
    cases hpos : strstr line matchCmd with
    | none => exact .absent (strstr_eq_none_iff.mp hpos)
    | some pos =>
      simp only [hpos] at h
      obtain ⟨u,t,rfl,rfl⟩ := split_of_strstr hpos
      simp only [List.mem_append,not_or] at h0
      by_cases hcomma : comma ∈ t
      · obtain ⟨a,b,rfl,ha⟩ := List.eq_append_cons_of_mem hcomma
        simp only [List.mem_append,List.mem_cons,not_or] at h0
        obtain ⟨-,-,ha0,-,hb0⟩ := h0
        obtain ⟨hlen,hrange | ⟨hu,hb,hlenb⟩⟩ := (scan_allowed_of_comma rfl ha ha0 hb0).mp h
        · exact .refused u a b rfl hpos ha hlen hrange
        · exact .two u a b rfl hpos hu ha hlen hb hlenb
      · obtain ⟨hu,hlen,hrange⟩ := (scan_allowed_of_noComma rfl hcomma h0.2.2).mp h
        exact .only u t rfl hpos hu hcomma hlen hrange
  · intro h
    cases h with
    | absent habsent => simp [strstr_eq_none_iff.mpr habsent]
    | refused u a b hsplit hpos ha hlen hrange =>
      subst hsplit
      simp only [List.mem_append,List.mem_cons,not_or] at h0
      simp only [hpos]
      exact (scan_allowed_of_comma rfl ha h0.2.2.1 h0.2.2.2.2).mpr ⟨hlen,.inl hrange⟩
    | two u a b hsplit hpos hu ha hlen hb hlenb =>
      subst hsplit
      simp only [List.mem_append,List.mem_cons,not_or] at h0
      simp only [hpos]
      exact (scan_allowed_of_comma rfl ha h0.2.2.1 h0.2.2.2.2).mpr ⟨hlen,.inr ⟨hu,hb,hlenb⟩⟩
    | only u t hsplit hpos hu ht hlen hrange =>
      subst hsplit
      simp only [List.mem_append,not_or] at h0
      simp only [hpos]
      exact (scan_allowed_of_noComma rfl ht h0.2.2).mpr ⟨hu,hlen,hrange⟩

set_option maxRecDepth 8000

def plainSeek : List UInt8 := matchCmd ++ [49,44,50,10]

theorem plainSeek_safe : AllAllowed plainSeek.length (accesses (plainSeek ++ [0]) plainSeek.length) := by
  apply (parser_safe_iff (plainSeek ++ [0]) plainSeek (by decide)).mpr
  apply SafeLine.two [] [49] [50,10]
  all_goals decide

/-- With two bytes in front of the command the loop reads behind the NUL of the line. -/
theorem quotedLine_overread : cstr (quotedLine ++ [0,0]) = some quotedLine ∧
    ¬ AllAllowed quotedLine.length (accesses (quotedLine ++ [0,0]) quotedLine.length) := by
  refine ⟨by decide,?_⟩
  intro h
  have hread : Access.readBuf 26 ∈ accesses (quotedLine ++ [0,0]) quotedLine.length := by decide
  have hle : 26 ≤ quotedLine.length := h _ hread
  simp [quotedLine,matchCmd] at hle

end Aesd.Server
