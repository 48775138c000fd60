import Aesd.Foundation.Numerals
import Aesd.Server.DataFile

/-! # What parse_seekto_cmd takes for a seek command

One digit buffer serves both numbers, and the loop visits as many bytes from the match on
as the whole line has. So the scan is described by the bytes that it visits: up to their
first comma they fill the buffer for x, and behind it they fill it again for y.
-/
namespace Aesd.Server
open CharDevice Kernel CString

/-- The array digits after the bytes bs were written to it. -/
def padded (bs : List UInt8) : List UInt8 := bs ++ List.replicate (digitsSize - bs.length) 0

theorem padded_nil : padded [] = List.replicate digitsSize 0 := rfl

theorem padded_set {bs : List UInt8} (h : bs.length < digitsSize) (b : UInt8) :
    (padded bs).set bs.length b = padded (bs ++ [b]) := by
  have hk : digitsSize - bs.length = digitsSize - (bs.length + 1) + 1 := by omega
  rw [padded,padded,hk,List.replicate_succ,List.set_append_right _ _ le_rfl]
  simp

theorem padded_of_lt {bs : List UInt8} (h : bs.length < digitsSize) :
    padded bs = bs ++ 0 :: List.replicate (digitsSize - bs.length - 1) 0 := by
  have hk : digitsSize - bs.length = digitsSize - bs.length - 1 + 1 := by omega
  rw [padded,hk,List.replicate_succ]
  simp

theorem zero_mem_padded_iff {bs : List UInt8} :
    0 ∈ padded bs ↔ bs.length < digitsSize ∨ 0 ∈ bs := by
  simp only [padded,List.mem_append,List.mem_replicate,ne_eq]
  constructor
  · rintro (h | ⟨h,-⟩)
    · exact .inr h
    · exact .inl (by omega)
  · rintro (h | h)
    · exact .inr ⟨by omega,trivial⟩
    · exact .inl h

theorem cstr_padded {bs : List UInt8} (h : bs.length < digitsSize) (h0 : 0 ∉ bs) :
    cstr (padded bs) = some bs := by
  rw [padded_of_lt h]
  exact cstr_append_zero h0 _

/-! ## The loop -/

theorem getElem?_of_drop {cmd bs : List UInt8} {i : ℕ} {b : UInt8} (h : cmd.drop i = b :: bs) :
    cmd[i]? = some b := by
  rw [← List.head?_drop,h]
  rfl

theorem drop_succ_of_drop {cmd bs : List UInt8} {i : ℕ} {b : UInt8} (h : cmd.drop i = b :: bs) :
    cmd.drop (i+1) = bs := by
  rw [← List.drop_drop,h]
  rfl

theorem scanLoop_digit {cmd digits : List UInt8} {n i j : ℕ} {c : Bool} {x : UInt32} {b : UInt8}
    (hb : cmd[i]? = some b) (hc : c = true ∨ b ≠ comma) (hj : j < digitsSize) :
    scanLoop cmd (n+1) i ⟨c,j,x,digits⟩ = scanLoop cmd n (i+1) ⟨c,j+1,x,digits.set j b⟩ := by
  have hif : ¬ ((!c) = true ∧ b = comma) := by
    rintro ⟨hc0,hcomma⟩
    obtain rfl | hne := hc
    · simp at hc0
    · exact hne hcomma
  simp only [scanLoop,hb,inBounds,bind,Except.bind]
  rw [if_neg hif,if_pos hj]

theorem scanLoop_comma {cmd digits : List UInt8} {n i j : ℕ} {x : UInt32} (hb : cmd[i]? = some comma) :
    scanLoop cmd (n+1) i ⟨false,j,x,digits⟩ = match strtoul digits with
      | none => .error .outOfBounds
      | some none => .ok none
      | some (some v) => scanLoop cmd n (i+1) ⟨true,0,UInt32.ofNat v.toNat,padded []⟩ := by
  simp only [scanLoop,hb,inBounds,bind,Except.bind,padded_nil]
  rw [if_pos (by simp)]
  cases strtoul digits with
  | none => rfl
  | some r => cases r <;> rfl

theorem scanLoop_outside {cmd : List UInt8} {n i : ℕ} (hi : cmd.length ≤ i) (st : Scan) :
    scanLoop cmd (n+1) i st = .error .outOfBounds := by
  simp [scanLoop,List.getElem?_eq_none hi,inBounds,bind,Except.bind]

theorem scanLoop_digits {cmd bs rest : List UInt8} {n i : ℕ} {c : Bool} {x : UInt32} (pre : List UInt8)
    (hcmd : cmd.drop i = bs ++ rest) (hc : c = true ∨ comma ∉ bs)
    (hlen : pre.length + bs.length ≤ digitsSize) :
    scanLoop cmd (bs.length + n) i ⟨c,pre.length,x,padded pre⟩ =
      scanLoop cmd n (i + bs.length) ⟨c,(pre ++ bs).length,x,padded (pre ++ bs)⟩ := by
  induction bs generalizing i pre with
  | nil => simp
  | cons b bs ih =>
    simp only [List.length_cons] at hlen
    have hcb : c = true ∨ b ≠ comma := by
      apply hc.imp_right
      rintro h rfl
      simp at h
    have hcbs : c = true ∨ comma ∉ bs := hc.imp_right (fun h h' => h (by simp [h']))
    have hstep : scanLoop cmd (bs.length + n + 1) i ⟨c,pre.length,x,padded pre⟩ =
        scanLoop cmd (bs.length + n) (i+1) ⟨c,pre.length + 1,x,(padded pre).set pre.length b⟩ :=
      scanLoop_digit (getElem?_of_drop hcmd) hcb (by omega)
    rw [padded_set (by omega)] at hstep
    have hrest := ih (pre ++ [b]) (drop_succ_of_drop hcmd) hcbs (by simp; omega)
    simp only [List.length_append,List.length_cons,List.length_nil,List.append_assoc,
      List.cons_append,List.nil_append] at hrest ⊢
    rw [show bs.length + 1 + n = bs.length + n + 1 by omega,hstep,hrest]
    congr 1
    · omega

theorem scanLoop_overflow {cmd bs rest : List UInt8} {n i : ℕ} {c : Bool} {x : UInt32}
    (hcmd : cmd.drop i = bs ++ rest) (hc : c = true ∨ comma ∉ bs) (hlen : digitsSize < bs.length) :
    scanLoop cmd (bs.length + n) i ⟨c,0,x,padded []⟩ = .error .outOfBounds := by
  have hsplit := List.take_append_drop digitsSize bs
  set full := bs.take digitsSize with hfull
  have hlenfull : full.length = digitsSize := by simp [hfull]; omega
  cases hmore : bs.drop digitsSize with
  | nil =>
    have := List.drop_eq_nil_iff.mp hmore
    omega
  | cons b more =>
    rw [hmore] at hsplit
    rw [← hsplit] at hcmd hc ⊢
    have hcfull : c = true ∨ comma ∉ full := hc.imp_right (fun h h' => h (by simp [h']))
    have hcb : ¬ ((!c) = true ∧ b = comma) := by
      rintro ⟨hc0,rfl⟩
      obtain rfl | hne := hc
      · simp at hc0
      · simp at hne
    rw [List.append_assoc] at hcmd
    have hrun := scanLoop_digits (n := more.length + n + 1) (x := x) [] hcmd hcfull (by simp [hlenfull])
    rw [List.length_append,List.length_cons,
      show full.length + (more.length + 1) + n = full.length + (more.length + n + 1) by omega]
    simp only [List.length_nil,List.nil_append] at hrun
    rw [hrun]
    have hdrop : cmd.drop (i + full.length) = b :: (more ++ rest) := by
      rw [← List.drop_drop,hcmd]
      simp
    simp only [scanLoop,getElem?_of_drop hdrop,inBounds,bind,Except.bind]
    rw [if_neg hcb,if_neg (by omega)]

theorem scanLoop_rest {cmd : List UInt8} {m i : ℕ} {c : Bool} {x : UInt32}
    (hc : c = true ∨ comma ∉ (cmd.drop i).take m) :
    scanLoop cmd m i ⟨c,0,x,padded []⟩ =
      if m ≤ (cmd.drop i).length ∧ m ≤ digitsSize then
        .ok (some ⟨c,m,x,padded ((cmd.drop i).take m)⟩)
      else .error .outOfBounds := by
  have hcmd := (List.take_append_drop m (cmd.drop i)).symm
  set bs := (cmd.drop i).take m with hbs
  have hlen : bs.length = min m (cmd.drop i).length := by simp [hbs]
  by_cases hblock : m ≤ (cmd.drop i).length
  · have hm : bs.length = m := by omega
    by_cases hfit : m ≤ digitsSize
    · rw [if_pos ⟨hblock,hfit⟩]
      have hrun := scanLoop_digits (n := 0) (x := x) [] hcmd hc (by simpa [hm] using hfit)
      simpa [hm,scanLoop] using hrun
    · rw [if_neg (fun h => hfit h.2)]
      have hrun := scanLoop_overflow (n := 0) (x := x) hcmd hc (by omega)
      simpa [hm] using hrun
  · rw [if_neg (fun h => hblock h.1)]
    obtain ⟨k,hk⟩ : ∃ k, m = bs.length + (k + 1) := ⟨m - bs.length - 1,by omega⟩
    by_cases hfit : bs.length ≤ digitsSize
    · have hrun := scanLoop_digits (n := k+1) (x := x) [] hcmd hc (by simpa using hfit)
      rw [hk]
      simp only [List.length_nil,List.nil_append] at hrun
      rw [hrun]
      apply scanLoop_outside
      rw [List.length_drop] at hlen hblock
      omega
    · have hrun := scanLoop_overflow (n := k+1) (x := x) hcmd hc (by omega)
      rw [hk]
      exact hrun

theorem scanLoop_first {cmd a rest : List UInt8} {k i : ℕ} {x : UInt32}
    (hcmd : cmd.drop i = a ++ comma :: rest) (ha : comma ∉ a) :
    scanLoop cmd (a.length + (k+1)) i ⟨false,0,x,padded []⟩ =
      if a.length ≤ digitsSize then match strtoul (padded a) with
        | none => .error .outOfBounds
        | some none => .ok none
        | some (some v) =>
          scanLoop cmd k (i + a.length + 1) ⟨true,0,UInt32.ofNat v.toNat,padded []⟩
      else .error .outOfBounds := by
  by_cases hlen : a.length ≤ digitsSize
  · have hrun := scanLoop_digits (n := k+1) (c := false) (x := x) [] hcmd (.inr ha) (by simpa using hlen)
    simp only [List.length_nil,List.nil_append] at hrun
    have hdrop : cmd.drop (i + a.length) = comma :: rest := by
      rw [← List.drop_drop,hcmd]
      simp
    rw [if_pos hlen,hrun,scanLoop_comma (getElem?_of_drop hdrop)]
  · rw [if_neg hlen]
    exact scanLoop_overflow hcmd (.inr ha) (by omega)

/-! ## The whole function -/

def afterLoop (y : UInt32) (st : Scan) : Except Fault (Option AesdSeekto) := do
  let digits ← inBounds (cstr st.digits)
  if digits = [] then return some ⟨st.x,y⟩
  else match ← inBounds (strtoul st.digits) with
    | none => return none
    | some y => return some ⟨st.x,UInt32.ofNat y.toNat⟩

/-- The bytes that the loop visits, as far as the block goes. -/
def scanned (buf : List UInt8) (pos size : ℕ) : List UInt8 :=
  (buf.drop (pos + matchCmd.length)).take (size - matchCmd.length)

theorem parse_eq_loop {buf line : List UInt8} {pos : ℕ} (hline : cstr buf = some line)
    (hpos : strstr line matchCmd = some pos) (x y : UInt32) :
    parseSeektoCmd x y buf line.length =
      (scanLoop (buf.drop pos) (line.length - matchCmd.length) matchCmd.length ⟨false,0,x,padded []⟩).bind
        (fun r => match r with
          | none => .ok none
          | some st => afterLoop y st) := by
  simp only [parseSeektoCmd,hline,hpos,inBounds,bind,Except.bind,Int.toNat_natCast,padded_nil]
  cases scanLoop (buf.drop pos) (line.length - matchCmd.length) matchCmd.length
      ⟨false,0,x,List.replicate digitsSize 0⟩ with
  | error f => rfl
  | ok r => cases r <;> rfl

theorem split_of_take {u a b : List UInt8} {c : UInt8} {m : ℕ} (h : u.take m = a ++ c :: b) :
    u = a ++ c :: u.drop (a.length + 1) ∧ (u.drop (a.length + 1)).take (m - a.length - 1) = b ∧
      a.length + 1 ≤ m := by
  have hlen := congrArg List.length h
  simp only [List.length_take,List.length_append,List.length_cons] at hlen
  refine ⟨?_,?_,by omega⟩
  · have htake : u.take (a.length + 1) = a ++ [c] := by
      calc u.take (a.length + 1) = (u.take m).take (a.length + 1) := by
            rw [List.take_take,Nat.min_eq_left (by omega)]
        _ = a ++ [c] := by rw [h,List.take_append]; simp
    have hsplit := List.take_append_drop (a.length + 1) u
    rw [htake,List.append_assoc] at hsplit
    exact hsplit.symm
  · calc (u.drop (a.length + 1)).take (m - a.length - 1) = (u.take m).drop (a.length + 1) := by
          rw [List.drop_take,Nat.sub_sub]
      _ = b := by rw [h,← List.drop_drop]; simp

theorem parse_of_comma {buf line a b : List UInt8} {pos : ℕ} (hline : cstr buf = some line)
    (hpos : strstr line matchCmd = some pos) (hscan : scanned buf pos line.length = a ++ comma :: b)
    (ha : comma ∉ a) (x y : UInt32) :
    parseSeektoCmd x y buf line.length =
      if a.length ≤ digitsSize then match strtoul (padded a) with
        | none => .error .outOfBounds
        | some none => .ok none
        | some (some v) =>
          if (scanned buf pos line.length).length = line.length - matchCmd.length ∧
              b.length ≤ digitsSize then
            afterLoop y ⟨true,b.length,UInt32.ofNat v.toNat,padded b⟩
          else .error .outOfBounds
      else .error .outOfBounds := by
  rw [parse_eq_loop hline hpos,hscan]
  rw [scanned,← List.drop_drop] at hscan
  set m := line.length - matchCmd.length
  set u := (buf.drop pos).drop matchCmd.length with hu
  obtain ⟨hsplit,hb,hm⟩ := split_of_take hscan
  have hsecond : (buf.drop pos).drop (matchCmd.length + a.length + 1) = u.drop (a.length + 1) := by
    simp only [hu,List.drop_drop,Nat.add_assoc]
  have hlenb : b.length = min (m - a.length - 1) (u.drop (a.length + 1)).length := by simp [← hb]
  have hrest : ∀ v, scanLoop (buf.drop pos) (m - a.length - 1) (matchCmd.length + a.length + 1)
        ⟨true,0,v,padded []⟩ =
      if (a ++ comma :: b).length = m ∧ b.length ≤ digitsSize then
        .ok (some ⟨true,b.length,v,padded b⟩)
      else .error .outOfBounds := by
    intro v
    rw [scanLoop_rest (.inl rfl),hsecond,hb]
    by_cases hall : m - a.length - 1 ≤ (u.drop (a.length + 1)).length
    · have hlen : b.length = m - a.length - 1 := by omega
      have hlena : (a ++ comma :: b).length = m := by simp; omega
      simp only [hall,hlen,hlena,true_and]
    · have hlena : (a ++ comma :: b).length ≠ m := by simp; omega
      rw [if_neg (fun h => hall h.1),if_neg (fun h => hlena h.1)]
  rw [show m = a.length + (m - a.length - 1 + 1) by omega,scanLoop_first hsplit ha]
  simp only [hrest]
  split
  · cases strtoul (padded a) with
    | none => rfl
    | some r =>
      cases r with
      | none => rfl
      | some v =>
        dsimp only
        rw [show a.length + (m - a.length - 1 + 1) = m by omega]
        split <;> rfl
  · rfl

theorem parse_of_noComma {buf line : List UInt8} {pos : ℕ} (hline : cstr buf = some line)
    (hpos : strstr line matchCmd = some pos) (hscan : comma ∉ scanned buf pos line.length)
    (x y : UInt32) :
    parseSeektoCmd x y buf line.length =
      if (scanned buf pos line.length).length = line.length - matchCmd.length ∧
          (scanned buf pos line.length).length ≤ digitsSize then
        afterLoop y ⟨false,(scanned buf pos line.length).length,x,padded (scanned buf pos line.length)⟩
      else .error .outOfBounds := by
  rw [parse_eq_loop hline hpos]
  rw [scanned,← List.drop_drop] at hscan ⊢
  set m := line.length - matchCmd.length
  rw [scanLoop_rest (.inr hscan)]
  set u := (buf.drop pos).drop matchCmd.length
  by_cases hall : m ≤ u.length
  · have hlen : (u.take m).length = m := by simp [hall]
    simp only [hall,hlen,true_and]
    split <;> rfl
  · have hlen : (u.take m).length ≠ m := by simp; omega
    rw [if_neg (fun h => hall h.1),if_neg (fun h => hlen h.1)]
    rfl

theorem afterLoop_eq_none_iff {y x : UInt32} {c : Bool} {j : ℕ} {b : List UInt8} :
    afterLoop y ⟨c,j,x,padded b⟩ = .ok none ↔ 0 ∈ padded b ∧ OutOfRange (padded b) := by
  rw [← strtoul_eq_range_iff]
  by_cases h0 : 0 ∈ padded b
  · simp only [afterLoop,cstr,inBounds,bind,Except.bind,pure,Except.pure,h0,true_and,if_true]
    by_cases hempty : untilNul (padded b) = []
    · have hrange : strtoul (padded b) ≠ some none := by
        cases hpad : padded b with
        | nil => simp [hpad] at h0
        | cons d ds =>
          rw [hpad] at hempty
          have hd : d = 0 := by simpa [untilNul] using hempty
          simp [strtoul,hd,isSpace,isDigit,decimal]
      simp [hempty,hrange]
    · rw [if_neg hempty]
      cases strtoul (padded b) with
      | none => simp
      | some r => cases r <;> simp
  · simp [afterLoop,cstr,h0,inBounds,bind,Except.bind]

/-- A seek command: two numerals of 32-bit values and a comma between them. -/
def SeekCommand (line : List UInt8) : Prop :=
  ∃ a b, Numeral a ∧ decimal a < 2^32 ∧ Numeral b ∧ decimal b < 2^32 ∧
    line = matchCmd ++ (a ++ comma :: (b ++ [newline]))

/-- A line with a number behind the command that no unsigned long holds. For the number
behind the comma all bytes that the loop visits have to be there. -/
inductive Refused (buf line : List UInt8) : Prop
  | first (pos : ℕ) (a b : List UInt8) (hpos : strstr line matchCmd = some pos)
      (hscan : scanned buf pos line.length = a ++ comma :: b) (ha : comma ∉ a)
      (hlen : a.length ≤ digitsSize) (hrange : OutOfRange (padded a))
  | second (pos : ℕ) (a b : List UInt8) (hpos : strstr line matchCmd = some pos)
      (hscan : scanned buf pos line.length = a ++ comma :: b) (ha : comma ∉ a)
      (hlen : a.length ≤ digitsSize) (hend : strtoul (padded a) ≠ none)
      (hall : (scanned buf pos line.length).length = line.length - matchCmd.length)
      (hlenb : b.length ≤ digitsSize) (h0 : 0 ∈ padded b) (hrange : OutOfRange (padded b))
  | only (pos : ℕ) (b : List UInt8) (hpos : strstr line matchCmd = some pos)
      (hscan : scanned buf pos line.length = b) (hb : comma ∉ b)
      (hall : (scanned buf pos line.length).length = line.length - matchCmd.length)
      (hlenb : b.length ≤ digitsSize) (h0 : 0 ∈ padded b) (hrange : OutOfRange (padded b))

/-- When the function returns -1 for a block with a command in it. -/
theorem parse_eq_none_iff {buf line : List UInt8} {pos : ℕ} (hline : cstr buf = some line)
    (hpos : strstr line matchCmd = some pos) (x y : UInt32) :
    parseSeektoCmd x y buf line.length = .ok none ↔ Refused buf line := by
  constructor
  · intro h
    by_cases hcomma : comma ∈ scanned buf pos line.length
    · obtain ⟨a,b,hscan,ha⟩ := List.eq_append_cons_of_mem hcomma
      rw [parse_of_comma hline hpos hscan ha] at h
      split at h
      case isFalse => simp at h
      case isTrue hlen =>
        cases hfirst : strtoul (padded a) with
        | none => simp [hfirst] at h
        | some r =>
          cases r with
          | none => exact .first pos a b hpos hscan ha hlen (strtoul_eq_range_iff.mp hfirst)
          | some v =>
            simp only [hfirst] at h
            split at h
            case isFalse => simp at h
            case isTrue hall =>
              obtain ⟨h0,hrange⟩ := afterLoop_eq_none_iff.mp h
              exact .second pos a b hpos hscan ha hlen (by simp [hfirst]) hall.1 hall.2 h0 hrange
    · rw [parse_of_noComma hline hpos hcomma] at h
      split at h
      case isFalse => simp at h
      case isTrue hall =>
        obtain ⟨h0,hrange⟩ := afterLoop_eq_none_iff.mp h
        exact .only pos _ hpos rfl hcomma hall.1 hall.2 h0 hrange
  · intro h
    cases h with
    | first pos' a b hpos' hscan ha hlen hrange =>
      rw [parse_of_comma hline hpos' hscan ha,if_pos hlen,strtoul_eq_range_iff.mpr hrange]
    | second pos' a b hpos' hscan ha hlen hend hall hlenb h0 hrange =>
      rw [parse_of_comma hline hpos' hscan ha,if_pos hlen]
      cases hfirst : strtoul (padded a) with
      | none => exact absurd hfirst hend
      | some r =>
        cases r with
        | none => rfl
        | some v =>
          dsimp only
          rw [if_pos ⟨hall,hlenb⟩]
          exact afterLoop_eq_none_iff.mpr ⟨h0,hrange⟩
    | only pos' b hpos' hscan hb hall hlenb h0 hrange =>
      subst hscan
      rw [parse_of_noComma hline hpos' hb,if_pos ⟨hall,hlenb⟩]
      exact afterLoop_eq_none_iff.mpr ⟨h0,hrange⟩

/-- A line that is no seek command is handed to write as data exactly when the command
does not occur in it, or a number behind the command is out of range. -/
theorem rejects_others_iff (buf line : List UInt8) (hline : cstr buf = some line) :
    (¬ SeekCommand line →
      (∀ x y, parseSeektoCmd x y buf line.length = .ok none) ∧
      ∀ env d fd fPos, appendDatafile true env d fd fPos buf line.length =
        writeDevice env.write d fd fPos buf line.length) ↔
      SeekCommand line ∨ ¬ matchCmd <:+: line ∨ Refused buf line := by
  have happend : (∀ x y, parseSeektoCmd x y buf line.length = .ok none) →
      ∀ env d fd fPos, appendDatafile true env d fd fPos buf line.length =
        writeDevice env.write d fd fPos buf line.length := by
    intro h env d fd fPos
    simp [appendDatafile,h,bind,Except.bind]
  have hparse : (∀ x y, parseSeektoCmd x y buf line.length = .ok none) ↔
      ¬ matchCmd <:+: line ∨ Refused buf line := by
    cases hpos : strstr line matchCmd with
    | none =>
      have habsent := strstr_eq_none_iff.mp hpos
      simp [parseSeektoCmd,hline,hpos,inBounds,bind,Except.bind,pure,Except.pure,habsent]
    | some pos =>
      have hpresent : matchCmd <:+: line := by
        by_contra habsent
        simp [strstr_eq_none_iff.mpr habsent] at hpos
      simp only [parse_eq_none_iff hline hpos,hpresent,not_true_eq_false,false_or,forall_const]
  rw [← hparse]
  constructor
  · intro h
    by_cases hseek : SeekCommand line
    · exact .inl hseek
    · exact .inr (h hseek).1
  · rintro (hseek | h) hno
    · exact absurd hseek hno
    · exact ⟨h,happend h⟩

def helloLine : List UInt8 := [104,101,108,108,111,10]

theorem helloLine_rejected : ¬ SeekCommand helloLine ∧
    (∀ x y, parseSeektoCmd x y (helloLine ++ [0]) helloLine.length = .ok none) ∧
    ∀ env d fd fPos, appendDatafile true env d fd fPos (helloLine ++ [0]) helloLine.length =
      writeDevice env.write d fd fPos (helloLine ++ [0]) helloLine.length := by
  have hno : ¬ SeekCommand helloLine := by
    rintro ⟨a,b,-,-,-,-,h⟩
    simp [helloLine,matchCmd] at h
  refine ⟨hno,(rejects_others_iff (helloLine ++ [0]) helloLine (by decide)).mpr (.inr (.inl ?_)) hno⟩
  exact strstr_eq_none_iff.mp (by decide)

set_option maxRecDepth 8000

def quotedLine : List UInt8 := [62,32] ++ matchCmd ++ [48,44,48,10]

/-- The line that only mentions a seek command is taken for one, and nothing is written. -/
theorem quotedLine_swallowed :
    cstr (quotedLine ++ [0,0]) = some quotedLine ∧ ¬ SeekCommand quotedLine ∧
      (∀ x y, parseSeektoCmd x y (quotedLine ++ [0,0]) quotedLine.length = .ok (some ⟨0,0⟩)) ∧
      ∀ env d fd fPos, appendDatafile true env d fd fPos (quotedLine ++ [0,0]) quotedLine.length =
        .ok (seekDevice env d fd fPos ⟨0,0⟩) := by
  have hline : cstr (quotedLine ++ [0,0]) = some quotedLine := by decide
  have hfirst : strtoul (padded [48]) = some (some 0) := by decide
  have hsecond : strtoul (padded [48,10,0,0]) = some (some 0) := by decide
  have hdigits : cstr (padded [48,10,0,0]) = some [48,10] := by decide
  have hparse : ∀ x y, parseSeektoCmd x y (quotedLine ++ [0,0]) quotedLine.length = .ok (some ⟨0,0⟩) := by
    intro x y
    have hscan : scanned (quotedLine ++ [0,0]) 2 quotedLine.length = [48] ++ comma :: [48,10,0,0] := by decide
    rw [parse_of_comma hline (by decide) hscan (by decide),hscan,if_pos (by decide),hfirst]
    dsimp only
    rw [if_pos (by decide),afterLoop,hdigits,hsecond]
    rfl
  refine ⟨hline,?_,hparse,?_⟩
  · rintro ⟨a,b,-,-,-,-,h⟩
    simp [quotedLine,matchCmd] at h
  · intro env d fd fPos
    simp [appendDatafile,hparse,bind,Except.bind,pure,Except.pure]

theorem notMem_of_numeral {ds : List UInt8} {b : UInt8} (h : Numeral ds) (hb : isDigit b = false) :
    b ∉ ds := by
  intro hmem
  simp [h.2 b hmem] at hb

theorem strtoul_numeral {ds : List UInt8} (hds : Numeral ds) (hfit : decimal ds < 2^32) {c : UInt8}
    (hc : isDigit c = false) (rest : List UInt8) :
    ∃ v, strtoul (ds ++ c :: rest) = some (some v) ∧ UInt32.ofNat v.toNat = UInt32.ofNat (decimal ds) := by
  refine ⟨_,strtoul_digits hds hc (by omega),?_⟩
  rw [UInt64.toNat_ofNat',Nat.mod_eq_of_lt (by omega)]

theorem scanned_append {s t : List UInt8} :
    scanned (matchCmd ++ s ++ t) 0 (matchCmd ++ s).length = s := by
  have hdrop : (matchCmd ++ s ++ t).drop (0 + matchCmd.length) = s ++ t := by
    rw [Nat.zero_add,List.append_assoc,List.drop_left]
  rw [scanned,hdrop,List.length_append,Nat.add_sub_cancel_left,List.take_left]

theorem parse_of_seekCommand {a b buf : List UInt8} (ha : Numeral a) (hafit : decimal a < 2^32)
    (hb : Numeral b) (hbfit : decimal b < 2^32)
    (hbuf : cstr buf = some (matchCmd ++ (a ++ comma :: (b ++ [newline]))))
    (hlen : (a ++ comma :: (b ++ [newline])).length < digitsSize) (x y : UInt32) :
    parseSeektoCmd x y buf (matchCmd ++ (a ++ comma :: (b ++ [newline]))).length =
      .ok (some ⟨UInt32.ofNat (decimal a),UInt32.ofNat (decimal b)⟩) := by
  obtain ⟨-,t,rfl⟩ := exists_of_cstr hbuf
  have hcomma : comma ∉ a := notMem_of_numeral ha rfl
  have hb0 : 0 ∉ b ++ [newline] := by
    rw [List.mem_append,not_or]
    exact ⟨notMem_of_numeral hb rfl,by decide⟩
  have hscan := scanned_append (s := a ++ comma :: (b ++ [newline])) (t := 0 :: t)
  simp only [List.length_append,List.length_cons,List.length_nil] at hlen
  have hlenb : (b ++ [newline]).length < digitsSize := by simp; omega
  obtain ⟨v,hv,hX⟩ := strtoul_numeral ha hafit (c := 0) rfl
    (List.replicate (digitsSize - a.length - 1) 0)
  obtain ⟨w,hw,hY⟩ := strtoul_numeral hb hbfit (c := newline) rfl
    (0 :: List.replicate (digitsSize - (b ++ [newline]).length - 1) 0)
  rw [parse_of_comma hbuf (strstr_append _ _) hscan hcomma,if_pos (by omega),padded_of_lt (by omega),hv]
  dsimp only
  have hcat : ∀ r, b ++ [newline] ++ 0 :: r = b ++ newline :: 0 :: r := by simp
  rw [hscan,if_pos ⟨by simp,by omega⟩,afterLoop,cstr_padded hlenb hb0,padded_of_lt hlenb,hcat,hw,hX]
  simp [inBounds,bind,Except.bind,pure,Except.pure,hY]

def seekNumeral (k : ℕ) (n : UInt32) : List UInt8 := List.replicate k 48 ++ printDecimal n.toNat

/-- What follows AESDCHAR_IOCSEEKTO: in the printed command. -/
def seekText (i j : ℕ) (X Y : UInt32) : List UInt8 :=
  seekNumeral i X ++ comma :: (seekNumeral j Y ++ [newline])

theorem seekNumeral_numeral (k : ℕ) (n : UInt32) : Numeral (seekNumeral k n) := by
  obtain ⟨hne,hdig⟩ := printDecimal_numeral n.toNat
  refine ⟨by simp [seekNumeral,hne],?_⟩
  intro d hd
  obtain hd | hd := List.mem_append.mp hd
  · rw [List.eq_of_mem_replicate hd]
    rfl
  · exact hdig d hd

theorem decimal_seekNumeral (k : ℕ) (n : UInt32) : decimal (seekNumeral k n) = n.toNat := by
  rw [seekNumeral,decimal_zeros,decimal_printDecimal]

/-- Printing a seek command and parsing it gives back both numbers. -/
theorem parse_of_print (X Y : UInt32) (i j : ℕ) (x y : UInt32) (buf : List UInt8)
    (hbuf : cstr buf = some (matchCmd ++ seekText i j X Y))
    (hlen : (seekText i j X Y).length < digitsSize) :
    parseSeektoCmd x y buf (matchCmd ++ seekText i j X Y).length = .ok (some ⟨X,Y⟩) := by
  have hX := decimal_seekNumeral i X
  have hY := decimal_seekNumeral j Y
  have hparse := parse_of_seekCommand (seekNumeral_numeral i X) (by rw [hX]; exact X.toNat_lt)
    (seekNumeral_numeral j Y) (by rw [hY]; exact Y.toNat_lt) hbuf hlen x y
  rw [hX,hY,UInt32.ofNat_toNat,UInt32.ofNat_toNat] at hparse
  exact hparse

theorem oneTwo_parsed : seekText 0 1 1 2 = [49,44,48,50,10] ∧
    parseSeektoCmd 0 0 (matchCmd ++ seekText 0 1 1 2 ++ [0]) (matchCmd ++ seekText 0 1 1 2).length =
      .ok (some ⟨1,2⟩) :=
  ⟨by decide,parse_of_print 1 2 0 1 0 0 _ (by decide) (by decide)⟩

end Aesd.Server
