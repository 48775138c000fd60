import Mathlib.Data.List.DropRight
import Mathlib.Data.List.Infix
import Mathlib.Tactic.Common

/-! # Separator-terminated records of a stream

A stream is cut behind every separator. The completed records keep their
separator; what follows the last one is the unfinished rest. Everything here is
stated over an arbitrary alphabet, and the appending laws say how the cut of a
stream is found from the cut of a part of it.
-/
namespace Aesd.Lines
variable {α : Type*} [DecidableEq α]

/-- Completed records of a stream together with its unfinished rest. -/
def cut (sep : α) : List α → List (List α) × List α
  | [] => ([],[])
  | a :: s =>
    if a = sep then ([a] :: (cut sep s).1,(cut sep s).2)
    else match cut sep s with
      | ([],r) => ([],a :: r)
      | (l :: ls,r) => ((a :: l) :: ls,r)

def lines (sep : α) (s : List α) : List (List α) := (cut sep s).1
def rest (sep : α) (s : List α) : List α := (cut sep s).2

/-- The stream up to and including its first separator, all of it if there is none. -/
def takeLine (sep : α) (s : List α) : List α := s.take (s.idxOf sep + 1)

@[simp] theorem lines_nil (sep : α) : lines sep [] = [] := rfl
@[simp] theorem rest_nil (sep : α) : rest sep [] = [] := rfl

theorem cut_sep_cons (sep : α) (s : List α) :
    cut sep (sep :: s) = ([sep] :: (cut sep s).1,(cut sep s).2) := if_pos rfl
theorem cut_cons_of_ne {sep a : α} (h : a ≠ sep) (s : List α) :
    cut sep (a :: s) = match cut sep s with
      | ([],r) => ([],a :: r)
      | (l :: ls,r) => ((a :: l) :: ls,r) := if_neg h

theorem cut_append_of_notMem {sep : α} {s : List α} (hs : sep ∉ s) (t : List α) :
    cut sep (s ++ t) = match cut sep t with
      | ([],r) => ([],s ++ r)
      | (l :: ls,r) => ((s ++ l) :: ls,r) := by
  induction s with
  | nil =>
    rw [List.nil_append]
    rcases cut sep t with ⟨_ | ⟨l,ls⟩,r⟩ <;> rfl
  | cons a s ih =>
    have ha : a ≠ sep := fun h => hs (by simp [h])
    have ht := ih (fun h => hs (List.mem_cons_of_mem _ h))
    rw [List.cons_append,cut_cons_of_ne ha,ht]
    rcases cut sep t with ⟨_ | ⟨l,ls⟩,r⟩ <;> rfl

theorem cut_of_notMem {sep : α} {s : List α} (hs : sep ∉ s) : cut sep s = ([],s) := by
  have h : cut sep (s ++ []) = ([],s ++ []) := cut_append_of_notMem hs []
  rwa [List.append_nil] at h

theorem lines_of_notMem {sep : α} {s : List α} (hs : sep ∉ s) : lines sep s = [] :=
  congrArg Prod.fst (cut_of_notMem hs)

theorem rest_of_notMem {sep : α} {s : List α} (hs : sep ∉ s) : rest sep s = s :=
  congrArg Prod.snd (cut_of_notMem hs)

theorem cut_append_sep {sep : α} {s : List α} (hs : sep ∉ s) (t : List α) :
    cut sep (s ++ sep :: t) = ((s ++ [sep]) :: (cut sep t).1,(cut sep t).2) := by
  rw [cut_append_of_notMem hs,cut_sep_cons]

theorem lines_append_sep {sep : α} {s : List α} (hs : sep ∉ s) (t : List α) :
    lines sep (s ++ sep :: t) = (s ++ [sep]) :: lines sep t :=
  congrArg Prod.fst (cut_append_sep hs t)

theorem rest_append_sep {sep : α} {s : List α} (hs : sep ∉ s) (t : List α) :
    rest sep (s ++ sep :: t) = rest sep t := by
  have h := congrArg Prod.snd (cut_append_sep hs t)
  exact h

theorem first_sep (sep : α) (s : List α) :
    sep ∉ s ∨ ∃ u t, sep ∉ u ∧ s = u ++ sep :: t := by
  by_cases h : sep ∈ s
  · obtain ⟨u,t,he,hu⟩ := List.eq_append_cons_of_mem h
    exact Or.inr ⟨u,t,hu,he⟩
  · exact Or.inl h

theorem takeLine_of_notMem {sep : α} {s : List α} (hs : sep ∉ s) : takeLine sep s = s := by
  rw [takeLine,List.idxOf_eq_length hs]
  exact List.take_of_length_le (Nat.le_succ _)

theorem takeLine_append_sep {sep : α} {u : List α} (hu : sep ∉ u) (t : List α) :
    takeLine sep (u ++ sep :: t) = u ++ [sep] := by
  have hi : (u ++ sep :: t).idxOf sep = u.length := by
    rw [List.idxOf_append,if_neg hu,List.idxOf_cons_self,Nat.zero_add]
  rw [takeLine,hi,List.take_append,List.take_of_length_le (Nat.le_succ _),Nat.add_sub_cancel_left]
  rfl

theorem takeLine_isPrefix (sep : α) (s : List α) : takeLine sep s <+: s := List.take_prefix _ _

theorem mem_takeLine_iff (sep : α) (s : List α) : sep ∈ takeLine sep s ↔ sep ∈ s := by
  rcases first_sep sep s with h | ⟨u,t,hu,rfl⟩
  · rw [takeLine_of_notMem h]
  · rw [takeLine_append_sep hu]
    simp

theorem getLast?_append_takeLine (sep : α) {s : List α} (hs : s ≠ []) (p : List α) :
    (p ++ takeLine sep s).getLast? = some sep ↔ sep ∈ s := by
  rcases first_sep sep s with h | ⟨u,t,hu,rfl⟩
  · rw [takeLine_of_notMem h,List.getLast?_append_of_ne_nil _ hs]
    exact ⟨fun hl => List.mem_of_getLast? hl,fun hm => absurd hm h⟩
  · rw [takeLine_append_sep hu,← List.append_assoc,List.getLast?_concat]
    simp

theorem length_takeLine_pos (sep : α) {s : List α} (hs : s ≠ []) : 0 < (takeLine sep s).length := by
  have h := List.length_pos_iff.mpr hs
  rw [takeLine,List.length_take]
  omega

/-- Cutting may resume from the unfinished rest of the part already cut. -/
theorem cut_append (sep : α) (s t : List α) :
    cut sep (s ++ t) = (lines sep s ++ lines sep (rest sep s ++ t),rest sep (rest sep s ++ t)) := by
  induction hn : s.length using Nat.strong_induction_on generalizing s with
  | _ n ih =>
    rcases first_sep sep s with hs | ⟨u,v,hu,rfl⟩
    · rw [lines_of_notMem hs,rest_of_notMem hs]
      rfl
    · have hv := ih v.length (by subst hn; simp; omega) v rfl
      rw [lines_append_sep hu,rest_append_sep hu,List.append_assoc,List.cons_append]
      apply Prod.ext
      · change lines sep _ = _
        rw [lines_append_sep hu,lines,hv]
        rfl
      · change rest sep _ = _
        rw [rest_append_sep hu,rest,hv]

theorem lines_append (sep : α) (s t : List α) :
    lines sep (s ++ t) = lines sep s ++ lines sep (rest sep s ++ t) :=
  congrArg Prod.fst (cut_append sep s t)

theorem rest_append (sep : α) (s t : List α) : rest sep (s ++ t) = rest sep (rest sep s ++ t) := by
  rw [rest,cut_append]

/-- The rest holds no separator, and the records are separator-free up to their end. -/
theorem cut_shape (sep : α) (s : List α) :
    sep ∉ rest sep s ∧ (∀ l ∈ lines sep s, ∃ u, sep ∉ u ∧ l = u ++ [sep]) ∧
      (lines sep s).flatten ++ rest sep s = s ∧ (lines sep s).length = s.count sep := by
  induction hn : s.length using Nat.strong_induction_on generalizing s with
  | _ n ih =>
    rcases first_sep sep s with hs | ⟨u,v,hu,rfl⟩
    · rw [lines_of_notMem hs,rest_of_notMem hs]
      exact ⟨hs,by simp,by simp,by simp [List.count_eq_zero_of_not_mem hs]⟩
    · obtain ⟨hr,hl,hf,hc⟩ := ih v.length (by subst hn; simp; omega) v rfl
      rw [lines_append_sep hu,rest_append_sep hu]
      refine ⟨hr,?_,?_,?_⟩
      · intro l hm
        rcases List.mem_cons.mp hm with rfl | hm
        · exact ⟨u,hu,rfl⟩
        · exact hl l hm
      · simp [List.append_assoc,hf]
      · simp [hc,List.count_eq_zero_of_not_mem hu]

theorem rest_notMem (sep : α) (s : List α) : sep ∉ rest sep s := (cut_shape sep s).1

theorem flatten_lines (sep : α) (s : List α) : (lines sep s).flatten ++ rest sep s = s :=
  (cut_shape sep s).2.2.1

theorem length_lines (sep : α) (s : List α) : (lines sep s).length = s.count sep :=
  (cut_shape sep s).2.2.2

theorem mem_lines_append {sep : α} {b : List α} (hb : sep ∉ b) (s t : List α) :
    rest sep s ++ b ++ [sep] ∈ lines sep (s ++ (b ++ sep :: t)) := by
  have hn : sep ∉ rest sep s ++ b := by simp [rest_notMem,hb]
  rw [lines_append,← List.append_assoc,lines_append_sep hn]
  simp

theorem getElem?_reverse_lines {sep : α} {s : List α} (h : sep ∈ s) :
    (lines sep s).reverse[s.count sep - 1]? = some (takeLine sep s) := by
  have hpos := List.count_pos_iff.mpr h
  rw [← length_lines] at hpos ⊢
  rw [List.getElem?_reverse (by omega),Nat.sub_self]
  rcases first_sep sep s with hnot | ⟨u,t,hu,rfl⟩
  · exact absurd h hnot
  · rw [lines_append_sep hu,takeLine_append_sep hu]
    rfl

theorem takeLine_append_takeLine (sep : α) (s t : List α) :
    takeLine sep (s ++ takeLine sep t) = takeLine sep (s ++ t) := by
  rcases first_sep sep t with ht | ⟨v,w,hv,rfl⟩
  · rw [takeLine_of_notMem ht]
  · rw [takeLine_append_sep hv]
    rcases first_sep sep s with hs | ⟨u,x,hu,rfl⟩
    · have hn : sep ∉ s ++ v := by simp [hs,hv]
      rw [← List.append_assoc,← List.append_assoc,takeLine_append_sep hn,takeLine_append_sep hn]
    · simp only [List.append_assoc,List.cons_append]
      rw [takeLine_append_sep hu,takeLine_append_sep hu]

theorem infix_lines_or_rest {sep : α} {w s : List α} (hw : sep ∉ w) (h : w <:+: s) :
    (∃ l ∈ lines sep s, w <:+: l) ∨ w <:+: rest sep s := by
  obtain ⟨x,y,rfl⟩ := h
  rcases first_sep sep y with hy | ⟨u,t,hu,rfl⟩
  · right
    have hn : sep ∉ rest sep x ++ (w ++ y) := by simp [rest_notMem,hw,hy]
    rw [List.append_assoc,rest_append,rest_of_notMem hn]
    exact ⟨rest sep x,y,List.append_assoc _ _ _⟩
  · left
    have hb : sep ∉ w ++ u := by simp [hw,hu]
    refine ⟨rest sep x ++ (w ++ u) ++ [sep],?_,rest sep x,u ++ [sep],by simp⟩
    simpa using mem_lines_append hb x t

end Aesd.Lines
